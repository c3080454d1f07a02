import InstanceTree.Group.Placement
import InstanceTree.Proofs.Edit
import InstanceTree.Proofs.Forest.Keys
import InstanceTree.Proofs.Group.Rows
import InstanceTree.Proofs.SchemaChildren

namespace InstanceTree

/-- The system keeps the instances sorted: those of a leaf-list, or of a list with keys, unless it
is left to the user. -/
def SchemaNode.KeptSorted (node : SchemaNode) : Prop :=
  node.orderedBy = .system ∧
    ((∃ type, node.kind = .leafList type) ∨ ∃ key keys, node.kind = .list (key :: keys))

theorem SchemaNode.sortKind?_eq_none {node : SchemaNode} :
    node.sortKind? = none ↔ ¬node.KeptSorted := by
  unfold sortKind? KeptSorted
  split
  · next ho hk => simp [ho, hk]
  · next ho hk => simp [ho, hk]
  · next hleafList hlist =>
    refine ⟨fun _ hsorted => ?_, fun _ => rfl⟩
    obtain ⟨ho, ⟨type, hk⟩ | ⟨key, keys, hk⟩⟩ := hsorted
    · exact hleafList type ho hk
    · exact hlist key keys ho hk

theorem SchemaNode.KeptSorted.exists_sortKind {node : SchemaNode} (h : node.KeptSorted) :
    ∃ kind, node.sortKind? = some kind := by
  cases hkind : node.sortKind? with
  | none => exact absurd h (sortKind?_eq_none.1 hkind)
  | some kind => exact ⟨kind, rfl⟩

namespace Forest

open Edit

variable {ctx : Context} {f : Forest} {n : NodeId} {e : Element} {p : Option NodeId}

/-- A guard changes nothing, and what it lets pass has a property. -/
def Guards (op : Edit Unit) (f : Forest) (P : Prop) : Prop :=
  Ensures op f fun r g => g = f ∧ (r = .ok () → P)

theorem Guards.bind {op : Edit Unit} {α : Type} {next : Unit → Edit α} {P : Prop}
    {R : Except Refusal α → Forest → Prop} (h : Guards op f P)
    (hrefuse : ∀ why, R (.error why) f) (hpass : P → Ensures (next ()) f R) :
    Ensures (op >>= next) f R := by
  refine Ensures.bind h ?_ ?_
  · intro a g hg
    obtain ⟨rfl, hP⟩ := hg
    exact hpass (hP rfl)
  · intro why g hg
    obtain ⟨rfl, -⟩ := hg
    exact hrefuse why

/-- A guard meets no fault and changes nothing. It lets pass exactly where a condition holds, and
it never asks for room in an index. -/
def Checks (op : Edit Unit) (f : Forest) (P : Prop) : Prop :=
  Lands op f fun r g => g = f ∧ (r = .ok () ↔ P) ∧ r ≠ .error .indexFull

namespace Checks

variable {op : Edit Unit} {P : Prop}

theorem refuse {why : Refusal} (hwhy : why ≠ .indexFull) (h : ¬P) :
    Checks (Edit.refuse why) f P :=
  Lands.refuse ⟨rfl, by simp [h], fun heq => hwhy (Except.error.inj heq)⟩

theorem pass (h : P) : Checks (pure ()) f P :=
  Lands.pure ⟨rfl, by simp [h], nofun⟩

theorem guards {Q : Prop} (h : Checks op f P) (hPQ : P → Q) : Guards op f Q :=
  (Lands.ensures h).mono fun _ _ hr => ⟨hr.1, fun heq => hPQ (hr.2.1.1 heq)⟩

theorem guard {c : Prop} [Decidable c] {why : Refusal} {rest : Edit Unit}
    (hwhy : why ≠ .indexFull) (hrefuse : c → ¬P) (hpass : ¬c → Checks rest f P) :
    Checks (if c then Edit.refuse why >>= fun _ : Unit => rest else rest) f P := by
  refine Lands.guard (fun hc => ?_) hpass
  exact ⟨rfl, by simp [hrefuse hc], fun heq => hwhy (Except.error.inj heq)⟩

theorem bind {α : Type} {next : Unit → Edit α} {R : Except Refusal α → Forest → Prop}
    (h : Checks op f P) (hrefuse : ∀ why, ¬P → why ≠ .indexFull → R (.error why) f)
    (hpass : P → Ensures (next ()) f R) : Ensures (op >>= next) f R := by
  refine Ensures.bind (Lands.ensures h) ?_ ?_
  · intro _ g hg
    obtain ⟨rfl, hiff, -⟩ := hg
    exact hpass (hiff.1 rfl)
  · intro why g hg
    obtain ⟨rfl, hiff, hwhy⟩ := hg
    exact hrefuse why (fun hP => nomatch hiff.2 hP) fun heq => hwhy (congrArg _ heq)

theorem bind_ends {α : Type} {next : Unit → Edit α} (h : Checks op f P)
    (hpass : P → Ends (next ()) f) : Ends (op >>= next) f := by
  apply Ends.bind_lands h
  intro _ g hg
  obtain ⟨rfl, hiff, -⟩ := hg
  exact hpass (hiff.1 rfl)

theorem bind_ok_iff {α : Type} {next : Unit → Edit α} (h : Checks op f P) {a : α} :
    (∃ g, (op >>= next).perform f = .ok (.ok a, g)) ↔
      P ∧ ∃ g, (next ()).perform f = .ok (.ok a, g) := by
  obtain ⟨r, _, hop, rfl, hiff, -⟩ := h
  cases r with
  | ok u =>
    rw [perform_bind_ok hop]
    exact (and_iff_right (hiff.1 rfl)).symm
  | error why =>
    have hP : ¬P := fun hP => nomatch hiff.2 hP
    simp [perform_bind_error hop, hP]

end Checks

theorem requireUnlinked_guards (n : NodeId) (f : Forest) :
    Guards (requireUnlinked n) f (∃ e, f.get? n = some e ∧ e.linked = false) := by
  apply Ensures.bind_look
  intro e he
  rw [element_eq_some] at he
  cases hlinked : e.linked with
  | true => exact Ensures.refuse ⟨rfl, by simp⟩
  | false => exact Ensures.pure ⟨rfl, fun _ => ⟨e, he, hlinked⟩⟩

theorem requireLinked_guards (n : NodeId) (f : Forest) :
    Guards (requireLinked n) f (∃ e, f.get? n = some e ∧ e.linked = true) := by
  apply Ensures.bind_look
  intro e he
  rw [element_eq_some] at he
  cases hlinked : e.linked with
  | false => exact Ensures.refuse ⟨rfl, by simp⟩
  | true => exact Ensures.pure ⟨rfl, fun _ => ⟨e, he, hlinked⟩⟩

theorem requireUnlinked_checks (he : f.get? n = some e) :
    Checks (requireUnlinked n) f (e.linked = false) := by
  apply Lands.bind_look (element_of_get? he)
  cases hlinked : e.linked with
  | true => exact Checks.refuse (by simp) (by simp)
  | false => exact Checks.pass rfl

theorem requireLinked_checks (he : f.get? n = some e) :
    Checks (requireLinked n) f (e.linked = true) := by
  apply Lands.bind_look (element_of_get? he)
  cases hlinked : e.linked with
  | true => exact Checks.pass rfl
  | false => exact Checks.refuse (by simp) (by simp)

theorem schemaNode_eq_ok {node : SchemaNode} (he : f.get? n = some e)
    (h : f.schemaNode ctx n = .ok node) : ctx.schema.nodes[e.schema]? = some node := by
  simp only [schemaNode, schemaOf_of_get? he, ok_bind] at h
  exact Schema.get_eq_ok.1 h

theorem schemaNode_ok {k : Layout} (h : Laid ctx.schema f k) (he : f.get? n = some e) :
    ∃ node, f.schemaNode ctx n = .ok node ∧ ctx.schema.nodes[e.schema]? = some node := by
  obtain ⟨node, hnode, -⟩ := h.typed n e he
  exact ⟨node, schemaNode_eq (t := e.schema) (by simp [kind?, he]) hnode, hnode⟩

theorem kindOfParent_checks {k : Layout} (h : Laid ctx.schema f k) (hp : f.Alive p)
    (he : f.get? n = some e) {node : SchemaNode} (hnode : ctx.schema.nodes[e.schema]? = some node)
    {expected : Option SchemaId} (hexpected : p.bind f.kind? = expected) :
    Checks (do
      let node ← Edit.look (schemaNode ctx · n)
      if node.parent ≠ expected then
        let place ← expected.mapM fun s => Edit.look fun _ => ctx.schema.get s
        Edit.mismatch (.wrongParent node.name (place.map (·.name)))) f
      (node.parent = p.bind f.kind?) := by
  subst hexpected
  apply Lands.bind_look (schemaNode_eq (t := e.schema) (by simp [kind?, he]) hnode)
  split
  · next hother =>
    cases p with
    | none => exact Checks.refuse (by simp) hother
    | some i =>
      obtain ⟨ei, hei⟩ := hp i rfl
      obtain ⟨host, hhost, -⟩ := h.typed i ei hei
      have hkind : (some i).bind f.kind? = some ei.schema := by simp [kind?, hei]
      rw [hkind] at hother ⊢
      rw [mapM_look_some fun s _ => ctx.schema.get s, bind_assoc]
      exact Lands.bind_look (Schema.get_eq_ok.2 hhost) (Checks.refuse (by simp) hother)
  · next hparent => exact Checks.pass (not_not.1 hparent)

theorem requireParent_guards {k : Layout} (h : Laid ctx.schema f k) (p : Option NodeId)
    (he : f.get? n = some e) :
    Guards (requireParent ctx p n) f (f.Alive p ∧ ∃ node,
      ctx.schema.nodes[e.schema]? = some node ∧ node.parent = p.bind f.kind?) := by
  obtain ⟨node, -, hnode⟩ := schemaNode_ok h he
  apply Ensures.bind_mapM_look
  · intro heq
    subst heq
    have hp : f.Alive none := nofun
    exact (kindOfParent_checks h hp he hnode rfl).guards fun hparent => ⟨hp, node, hnode, hparent⟩
  · intro i t heq ht
    subst heq
    have hkind := schemaOf_eq_ok.1 ht
    obtain ⟨ei, hei, -⟩ := get?_of_kind? hkind
    have hp : f.Alive (some i) := alive_some.2 ⟨ei, hei⟩
    exact (kindOfParent_checks h hp he hnode hkind).guards fun hparent => ⟨hp, node, hnode, hparent⟩

theorem requireParent_checks {k : Layout} (h : Laid ctx.schema f k) (hp : f.Alive p)
    (he : f.get? n = some e) {node : SchemaNode} (hnode : ctx.schema.nodes[e.schema]? = some node) :
    Checks (requireParent ctx p n) f (node.parent = p.bind f.kind?) := by
  cases p with
  | none => exact kindOfParent_checks h hp he hnode rfl
  | some i =>
    obtain ⟨ei, hei⟩ := hp i rfl
    rw [requireParent, mapM_look_some (fun i f => schemaOf f i), bind_assoc]
    apply Lands.bind_look (schemaOf_of_get? hei)
    exact kindOfParent_checks h hp he hnode (by simp [kind?, hei])

theorem neighbourSchema_lands {link : Option NodeId} (h : f.Alive link) {α : Type}
    {next : Option SchemaId → Edit α} {R : Except Refusal α → Forest → Prop}
    (hnext : Lands (next (link.bind f.kind?)) f R) : Lands (neighbourSchema link >>= next) f R := by
  cases link with
  | none => exact hnext
  | some i =>
    obtain ⟨ei, hei⟩ := h i rfl
    have hkind : (some i).bind f.kind? = some ei.schema := by simp [kind?, hei]
    rw [hkind] at hnext
    rw [neighbourSchema, mapM_look_some fun i f => schemaOf f i, bind_assoc]
    exact Lands.bind_look (schemaOf_of_get? hei) hnext

theorem any_isOf {link : Option NodeId} {t : SchemaId} :
    link.any (f.isOf t) = true ↔ link.bind f.kind? = some t := by
  cases link <;> simp [isOf]

theorem beside_iff {k : Layout} {xs ys : List NodeId} {t : SchemaId} (hk : k p = xs ++ ys) :
    Beside (f.isOf t) xs ys ↔ ¬((f.group k p t).head?.isSome ∧
      xs.getLast?.bind f.kind? ≠ some t ∧ ys.head?.bind f.kind? ≠ some t) := by
  have hnone : f.group k p t = [] ↔ ∀ a ∈ xs ++ ys, f.isOf t a = false := by
    rw [group, hk, List.filter_eq_nil_iff]
    simp only [Bool.not_eq_true]
  rw [Beside, any_isOf, any_isOf, ← hnone, List.isSome_head?]
  tauto

theorem outside_iff {xs ys : List NodeId} {t : SchemaId} :
    (∀ u, u ≠ t → Outside (f.isOf u) xs ys) ↔
      ¬((xs.getLast?.bind f.kind?).isSome ∧ xs.getLast?.bind f.kind? = ys.head?.bind f.kind? ∧
        xs.getLast?.bind f.kind? ≠ some t) := by
  simp only [Outside, ← Bool.not_eq_true, any_isOf, ← not_and_or]
  generalize xs.getLast?.bind f.kind? = before
  generalize ys.head?.bind f.kind? = after
  constructor
  · intro h hsplits
    obtain ⟨hsome, heq, hother⟩ := hsplits
    obtain ⟨u, rfl⟩ := Option.isSome_iff_exists.1 hsome
    exact h u (fun hut => hother (congrArg some hut)) ⟨rfl, heq.symm⟩
  · intro h u hut hboth
    obtain ⟨rfl, rfl⟩ := hboth
    exact h ⟨rfl, rfl, fun heq => hut (Option.some.inj heq)⟩

/-- Instances of `t` may be placed by hand between `xs` and `ys`: they are neither kept sorted nor
keys, and the place is behind the keys, beside other instances, if there are any, and not between
instances of another schema node. -/
structure Placeable (ctx : Context) (f : Forest) (node : SchemaNode) (t : SchemaId)
    (xs ys : List NodeId) : Prop where
  unsorted : node.sortKind? = none
  noKey : node.isKey = false
  behind : BehindKeys ctx.schema f ys
  outside : ∀ u, u ≠ t → Outside (f.isOf u) xs ys
  beside : Beside (f.isOf t) xs ys

theorem exists_neighbour {xs ys : List NodeId} (hne : xs ++ ys ≠ []) :
    ∃ m, xs.getLast?.or ys.head? = some m ∧ m ∈ xs ++ ys := by
  rcases List.eq_nil_or_concat xs with rfl | ⟨xs, m, rfl⟩
  · cases ys with
    | nil => exact absurd rfl hne
    | cons m ys => exact ⟨m, rfl, by simp⟩
  · exact ⟨m, by simp, by simp⟩

theorem requirePlace_checks {k : Layout} (h : Laid ctx.schema f k) (hs : ctx.schema.Built)
    {xs ys : List NodeId} (hk : k p = xs ++ ys) (hne : xs ++ ys ≠ []) (he : f.get? n = some e)
    {node : SchemaNode} (hnode : ctx.schema.nodes[e.schema]? = some node) :
    Checks (requirePlace ctx xs.getLast? ys.head? n) f (Placeable ctx f node e.schema xs ys) := by
  have hprev := h.alive_last hk
  have hnext := h.alive_head hk
  apply Lands.bind_look (schemaNode_eq (t := e.schema) (by simp [kind?, he]) hnode)
  apply Checks.guard (by simp)
  · intro hsorted hplace
    rw [hplace.unsorted] at hsorted
    cases hsorted
  intro hsorted
  apply Checks.guard (by simp)
  · intro hkey hplace
    cases hplace.noKey.symm.trans hkey
  intro hkey
  extract_lets besideNeighbours
  have hrest : BehindKeys ctx.schema f ys →
      Checks (besideNeighbours ()) f (Placeable ctx f node e.schema xs ys) := by
    intro hbehind
    apply Lands.bind_look (schemaOf_of_get? he)
    apply neighbourSchema_lands hprev
    apply neighbourSchema_lands hnext
    apply Checks.guard (by simp)
    · exact fun hsplits hplace => outside_iff.1 hplace.outside hsplits
    intro hsplits
    obtain ⟨m, hm, hmk⟩ := exists_neighbour hne
    rw [← hk] at hmk
    obtain ⟨em, hem, -, hparent⟩ := h.exists_of_mem hmk
    rw [hm]
    apply Lands.bind_look (element_of_get? hem)
    rw [hparent]
    apply Lands.bind_look (h.runStart_eq (h.alive_of_mem hmk) e.schema)
    split
    · next haway =>
      exact Checks.refuse (by simp) fun hplace => (beside_iff hk).1 hplace.beside haway
    · next hnear =>
      exact Checks.pass ⟨by simpa using hsorted, by simpa using hkey, hbehind,
        outside_iff.2 hsplits, (beside_iff hk).2 hnear⟩
  cases hhead : ys.head? with
  | none =>
    apply hrest
    intro m t hm
    cases hhead.symm.trans hm
  | some x =>
    obtain ⟨ex, hex⟩ := hnext x hhead
    obtain ⟨following, hfollowing, hnodex⟩ := schemaNode_ok h hex
    have hkind : f.kind? x = some ex.schema := by simp [kind?, hex]
    apply Lands.bind_look hfollowing
    apply Checks.guard (by simp)
    · intro hisKey hplace
      have hno := (hs.noKey_iff hnodex).1 (hplace.behind x ex.schema hhead hkind)
      cases hno.symm.trans hisKey
    · intro hfree
      apply hrest
      intro m t hm ht
      cases hhead.symm.trans hm
      cases hkind.symm.trans ht
      exact hs.noKey_of_isKey hnodex (by simpa using hfree)

end Forest

end InstanceTree
