import InstanceTree.Proofs.Group.Insertion
import InstanceTree.Proofs.Operations.Guards

namespace InstanceTree

open Edit

/-- A refused edit has changed nothing, and another one leads to forests with a property. -/
def Edit.Atomic {α : Type} (op : Edit α) (f : Forest) (P : Forest → Prop) : Prop :=
  Ensures op f fun r g => match r with
    | .ok _ => P g
    | .error _ => g = f

/-- An edit meets no fault; if it is refused it has changed nothing, and else it leads to a forest
with a property. -/
def Edit.Decides {α : Type} (op : Edit α) (f : Forest) (P : Forest → Prop) : Prop :=
  Lands op f fun r g => match r with
    | .ok _ => P g
    | .error _ => g = f

theorem Edit.Decides.atomic {α : Type} {op : Edit α} {f : Forest} {P : Forest → Prop}
    (h : Decides op f P) : Atomic op f P :=
  Lands.ensures h

theorem Edit.Decides.ends {α : Type} {op : Edit α} {f : Forest} {P : Forest → Prop}
    (h : Decides op f P) : Ends op f :=
  Lands.ends h

theorem Edit.Atomic.mono {α : Type} {op : Edit α} {f : Forest} {P Q : Forest → Prop}
    (h : Atomic op f P) (hQ : ∀ g, P g → Q g) : Atomic op f Q := by
  refine Ensures.mono h fun r g hr => ?_
  cases r with
  | ok _ => exact hQ g hr
  | error _ => exact hr

theorem Edit.Atomic.keeps {α : Type} {op : Edit α} {I : Forest → Prop}
    (h : ∀ f, I f → Atomic op f I) : Keeps I op := by
  intro f hf
  refine Ensures.mono (h f hf) fun r g hr => ?_
  cases r with
  | ok _ => exact hr
  | error _ => exact hr ▸ hf

namespace Forest

/-- The sound forest `g` is `f` with `n` between `xs` and `ys` below `p`, but for anchors. -/
structure Placing (ctx : Context) (f : Forest) (k : Layout) (p : Option NodeId) (n : NodeId)
    (e : Element) (xs ys : List NodeId) (g : Forest) : Prop where
  split : k p = xs ++ ys
  lives : f.get? n = some e
  loose : e.linked = false
  free : ctx.schema.NoKey e.schema
  behind : xs.getLast?.any (f.isOf e.schema) = true ∨ BehindKeys ctx.schema f ys
  sound : Sound ctx g (Function.update k p (xs ++ n :: ys))
  bare_eq : g.bare = (f.placed e.schema p xs.getLast? n ys.head?).bare

variable {ctx : Context} {f : Forest} {k : Layout} {n pivot : NodeId} {p : Option NodeId}
  {xs ys : List NodeId} {e : Element}

theorem kind?_of_bare {g h : Forest} (heq : g.bare = h.bare) : g.kind? = h.kind? := by
  have hkind := congrArg Forest.kind? heq
  rwa [bare, bare, kind?_anchored, kind?_anchored] at hkind

theorem payload_anchored (f : Forest) (a : NodeId → Option Anchor) (i : NodeId) :
    (f.anchored a).payload i = f.payload i := by
  rw [payload, payload, get?_anchored]
  cases f.get? i <;> rfl

theorem payload_eq_of_bare {f g : Forest} (h : g.bare = f.bare) (i : NodeId) :
    g.payload i = f.payload i := by
  rw [← payload_anchored g fun _ => none, ← payload_anchored f fun _ => none]
  exact congrArg (payload · i) h

theorem Placing.kind?_eq {g : Forest} (h : Placing ctx f k p n e xs ys g) : g.kind? = f.kind? :=
  (kind?_of_bare h.bare_eq).trans (kind?_placed ..)

theorem Placing.payload_eq {g : Forest} (h : Placing ctx f k p n e xs ys g) (i : NodeId) :
    g.payload i = f.payload i :=
  (payload_eq_of_bare h.bare_eq i).trans (payload_placed ..)

theorem Placing.keyLed {g : Forest} (h : Placing ctx f k p n e xs ys g)
    (hf : KeyLed ctx.schema f k) : KeyLed ctx.schema g (Function.update k p (xs ++ n :: ys)) :=
  (hf.place h.split (by simp [kind?, h.lives]) h.free h.behind).of_kind h.kind?_eq

theorem atomic_of_requirePlace (h : Sound ctx f k) (hs : ctx.schema.Built) (hk : k p = xs ++ ys)
    (hne : xs ++ ys ≠ []) (he : f.get? n = some e) (hloose : e.linked = false)
    (splice : Forest → Except Fault Forest)
    (hsplice : splice f = .ok (f.placed e.schema p xs.getLast? n ys.head?)) :
    Atomic (do
      requireParent ctx p n
      requirePlace ctx xs.getLast? ys.head? n
      change splice) f (Placing ctx f k p n e xs ys) := by
  refine (requireParent_guards h.laid p he).bind (fun _ => rfl) ?_
  intro hfits
  obtain ⟨hp, node, hnode, hparent⟩ := hfits
  refine (requirePlace_checks h.laid hs hk hne he hnode).bind (fun _ _ _ => rfl) ?_
  intro hplace
  apply Ensures.change
  intro g hg
  cases hsplice.symm.trans hg
  obtain ⟨c, hc⟩ := h.laid.chain_of_parent hs hp hnode hparent
  have hlaid := h.laid.place hk he hloose hc ⟨node, hnode, hparent⟩ hplace.beside hplace.outside
  have hfree := hs.noKey_of_isKey hnode hplace.noKey
  have hsound := h.place_unsorted hk he hnode hfree hplace.unsorted hlaid
  exact ⟨hk, he, hloose, hfree, .inr hplace.behind, hsound, rfl⟩

theorem insertBefore_atomic (h : Sound ctx f k) (hs : ctx.schema.Built) (pivot n : NodeId) :
    Atomic (insertBefore ctx pivot n) f fun g =>
      ∃ p e xs ys, Placing ctx f k p n e xs (pivot :: ys) g := by
  refine (requireUnlinked_guards n f).bind (fun _ => rfl) ?_
  intro helement
  obtain ⟨e, he, hloose⟩ := helement
  refine (requireLinked_guards pivot f).bind (fun _ => rfl) ?_
  intro hpivot
  obtain ⟨ep, hep, hlinked⟩ := hpivot
  refine Ensures.bind_look_ok (element_of_get? hep) ?_
  obtain ⟨xs, ys, hk⟩ := List.append_of_mem (h.laid.placed pivot ep hep hlinked)
  obtain ⟨-, -, hprev, -⟩ := h.laid.links_of_get? hk hep
  rw [hprev]
  have hplace := atomic_of_requirePlace h hs hk (by simp) he hloose
    (spliceBefore · pivot n) (h.laid.spliceBefore_eq hk rfl he hloose)
  exact hplace.mono fun g hg => ⟨_, e, xs, ys, hg⟩

theorem insertAfter_atomic (h : Sound ctx f k) (hs : ctx.schema.Built) (pivot n : NodeId) :
    Atomic (insertAfter ctx pivot n) f fun g =>
      ∃ p e xs ys, Placing ctx f k p n e (xs ++ [pivot]) ys g := by
  refine (requireUnlinked_guards n f).bind (fun _ => rfl) ?_
  intro helement
  obtain ⟨e, he, hloose⟩ := helement
  refine (requireLinked_guards pivot f).bind (fun _ => rfl) ?_
  intro hpivot
  obtain ⟨ep, hep, hlinked⟩ := hpivot
  refine Ensures.bind_look_ok (element_of_get? hep) ?_
  obtain ⟨xs, ys, hk⟩ := List.append_of_mem (h.laid.placed pivot ep hep hlinked)
  obtain ⟨-, -, -, hnext⟩ := h.laid.links_of_get? hk hep
  have hk' : k ep.parent = (xs ++ [pivot]) ++ ys := by simpa using hk
  rw [hnext, ← List.getLast?_concat (l := xs) (a := pivot)]
  have hplace := atomic_of_requirePlace h hs hk' (by simp) he hloose
    (spliceAfter · pivot n) (h.laid.spliceAfter_eq hk' List.getLast?_concat he hloose)
  exact hplace.mono fun g hg => ⟨_, e, xs, ys, hg⟩

/-- The place between `xs` and `ys` is the one that `n` gets by itself: its sorted position, or
else behind its last sibling of the same kind; the end, if it is the first of its kind. -/
structure Settles (f : Forest) (k : Layout) (node : SchemaNode) (t : SchemaId) (n : NodeId)
    (xs ys : List NodeId) : Prop where
  sorted : node.sortKind?.isSome → (∀ m ∈ xs, f.isOf t m = true → f.rowOrder k node m n ≠ .gt) ∧
    ∀ m ∈ ys, f.isOf t m = true → f.rowOrder k node m n = .gt
  unsorted : node.sortKind? = none → (xs ++ ys).any (f.isOf t) = true →
    xs.getLast?.any (f.isOf t) = true ∧ ∀ m ∈ ys, f.isOf t m = false
  first : (∀ m ∈ xs ++ ys, f.isOf t m = false) → ys = []
  beside : Beside (f.isOf t) xs ys

theorem settles_last {node : SchemaNode} {t : SchemaId} {l : List NodeId}
    (hl : ∀ m ∈ l, f.isOf t m = false) : Settles f k node t n l [] := by
  refine ⟨?_, ?_, fun _ => rfl, .inr (.inr (by simpa using hl))⟩
  · intro _
    refine ⟨fun m hm hof => ?_, by simp⟩
    rw [hl m hm] at hof
    cases hof
  · intro _ hany
    obtain ⟨m, hm, hof⟩ := List.any_eq_true.1 hany
    rw [hl m (by simpa using hm)] at hof
    cases hof

theorem appendInstance_decides (h : Sound ctx f k) (hs : ctx.schema.Built) (hp : f.Alive p)
    (he : f.get? n = some e) (hloose : e.linked = false) {node : SchemaNode}
    (hnode : ctx.schema.nodes[e.schema]? = some node) (hparent : node.parent = p.bind f.kind?)
    (hkey : node.isKey = false) (hunsorted : node.sortKind? = none) :
    Decides (appendInstance p e.schema n) f fun g => ∃ xs ys, Placing ctx f k p n e xs ys g ∧
      Settles f k node e.schema n xs ys := by
  obtain ⟨c, hc⟩ := h.laid.chain_of_parent hs hp hnode hparent
  have hfree := hs.noKey_of_isKey hnode hkey
  have hfinish : ∀ xs ys, k p = xs ++ ys → Settles f k node e.schema n xs ys →
      (xs.getLast?.any (f.isOf e.schema) = true ∨ BehindKeys ctx.schema f ys) →
      (∀ t, t ≠ e.schema → Outside (f.isOf t) xs ys) →
      ∃ xs' ys', Placing ctx f k p n e xs' ys'
        (f.placed e.schema p xs.getLast? n ys.head?) ∧ Settles f k node e.schema n xs' ys' := by
    intro xs ys hk hsettles hbehind houtside
    have hlaid := h.laid.place hk he hloose hc ⟨node, hnode, hparent⟩ hsettles.beside houtside
    have hsound := h.place_unsorted hk he hnode hfree hunsorted hlaid
    exact ⟨xs, ys, ⟨hk, he, hloose, hfree, hbehind, hsound, rfl⟩, hsettles⟩
  have hrunEnd := h.laid.runEnd_eq hp e.schema
  obtain ⟨as, bs, htogether⟩ := (h.laid.contiguous p e.schema).together
  change Together (f.isOf e.schema) (k p) as (f.group k p e.schema) bs at htogether
  rcases List.eq_nil_or_concat (f.group k p e.schema) with hgroup | ⟨gx, last, hgroup⟩
  · rw [hgroup] at hrunEnd
    have hnone : ∀ m ∈ k p, f.isOf e.schema m = false := by
      simpa using List.filter_eq_nil_iff.1 hgroup
    refine Lands.change ?_ (hfinish (k p) [] (by simp) (settles_last hnone) (.inr nofun)
      fun t _ => .inr rfl)
    simp only [hrunEnd, ok_bind]
    exact h.laid.spliceLast_eq hp hc he hloose
  · rw [hgroup, List.concat_eq_append] at hrunEnd htogether
    rw [List.getLast?_concat] at hrunEnd
    have hk : k p = (as ++ gx ++ [last]) ++ bs := by simpa using htogether.eq
    have hlast := htogether.within last (by simp)
    refine Lands.change (g := f.placed e.schema p (as ++ gx ++ [last]).getLast? n bs.head?) ?_
      (hfinish _ _ hk ⟨by simp [hunsorted], ?_, ?_, ?_⟩ (.inl (by simpa using hlast)) ?_)
    · simp only [hrunEnd, ok_bind]
      exact h.laid.spliceAfter_eq hk List.getLast?_concat he hloose
    · exact fun _ _ => ⟨by simpa using hlast, htogether.after⟩
    · intro hnone
      rw [hnone last (by simp)] at hlast
      cases hlast
    · exact .inl (by simpa using hlast)
    · intro t ht
      refine .inl ?_
      rw [List.getLast?_concat, Option.any_some]
      simp only [isOf, decide_eq_true_eq] at hlast
      simp [isOf, hlast, Ne.symm ht]

theorem tryEnsureAnchor_perform (he : f.get? n = some e) (hnone : f.anchorAt n = none)
    (hfirst : f.startsRun n = .ok true) :
    (tryCatch (ensureAnchor ctx n) fun _ => pure () : Edit Unit).perform f = .ok (.ok (),
      f.anchored (if ctx.indexes then Function.update f.anchorAt n (some {}) else f.anchorAt)) := by
  rw [perform_tryCatch]
  cases hindexes : ctx.indexes with
  | true =>
    have hensure := ensureAnchor_anchored (a := f.anchorAt) hindexes he
    rw [anchored_anchorAt, ensured, hnone] at hensure
    rw [hensure hfirst]
    rfl
  | false =>
    rw [ensureAnchor_plain hindexes he hnone hfirst, if_neg Bool.false_ne_true, anchored_anchorAt]
    rfl

theorem joins_of_first (h : Sound ctx f k) (hs : ctx.schema.Built) (he : f.get? n = some e)
    (hloose : e.linked = false) {node : SchemaNode}
    (hnode : ctx.schema.nodes[e.schema]? = some node) (hparent : node.parent = p.bind f.kind?)
    {kind : SortKind} (hkind : node.sortKind? = some kind)
    (hnone : ∀ m ∈ k p, f.isOf e.schema m = false) :
    Joins ctx f k p node kind n e (k p) [] [] [] :=
  ⟨⟨h, hs, hnode, hkind, ⟨by simp, hnone, by simp, by simp⟩⟩, he, hloose, hparent, by simp,
    by simp⟩

theorem startsRun_spliceLast {node : SchemaNode} {kind : SortKind}
    (h : Joins ctx f k p node kind n e (k p) [] [] []) (hp : f.Alive p) {g : Forest}
    (hg : f.spliceLast p n = .ok g) : g.startsRun n = .ok true := by
  obtain ⟨c, hc⟩ := h.sound.laid.chain_of_parent h.built hp h.node_eq h.parent_eq
  cases (h.sound.laid.spliceLast_eq hp hc h.lives h.loose).symm.trans hg
  have hkind := congrFun (kind?_placed (f := f) (p := p) (n := n) e.schema (k p).getLast? none)
  obtain ⟨e', he', hschema⟩ := get?_of_kind? ((hkind n).trans h.kind?_eq)
  have hlaid := h.laid hc (.inr rfl)
  simp only [List.append_nil, List.head?_nil] at hlaid
  have hsplit : Function.update k p (k p ++ [n]) p = k p ++ [n] := Function.update_self ..
  refine hlaid.startsRun_eq hsplit he' ?_
  intro m hm
  rw [hschema, isOf, hkind m]
  exact h.together.before m hm

theorem startGroup_decides (h : Sound ctx f k) (hs : ctx.schema.Built) (hp : f.Alive p)
    (he : f.get? n = some e) (hloose : e.linked = false) {node : SchemaNode}
    (hnode : ctx.schema.nodes[e.schema]? = some node) (hparent : node.parent = p.bind f.kind?)
    {kind : SortKind} (hkind : node.sortKind? = some kind)
    (hnone : ∀ m ∈ k p, f.isOf e.schema m = false) :
    Decides (startGroup ctx p n) f fun g => ∃ xs ys, Placing ctx f k p n e xs ys g ∧
      Settles f k node e.schema n xs ys := by
  obtain ⟨c, hc⟩ := h.laid.chain_of_parent hs hp hnode hparent
  have hjoins := joins_of_first h hs he hloose hnode hparent hkind hnone
  have hlaid := hjoins.laid hc (.inr rfl)
  have hsplice := h.laid.spliceLast_eq hp hc he hloose
  have hfirst := startsRun_spliceLast hjoins hp hsplice
  refine Lands.bind_change hsplice ?_
  obtain ⟨e', he'⟩ := exists_get?_placed he e.schema p (k p).getLast? n none
  have hanchor := anchorAt_placed (f := f) (p := p) (n := n) e.schema (k p).getLast? none
  have hloose' := h.anchorAt_of_loose he hloose
  refine Lands.intro (tryEnsureAnchor_perform he' ((hanchor n).trans hloose') hfirst) ?_
  refine ⟨k p, [], ⟨by simp, he, hloose, hjoins.noKey, .inr nofun, ?_, bare_anchored ..⟩,
    settles_last hnone⟩
  have hsound := hjoins.sound_placed (a := if ctx.indexes then
    Function.update f.anchorAt n (some {}) else f.anchorAt) hlaid ?_ ?_
  · simp only [List.append_nil, List.head?_nil] at hsound
    rwa [show (f.placed e.schema p (k p).getLast? n none).anchorAt = f.anchorAt from
      funext hanchor]
  · intro m hm
    cases List.mem_singleton.1 hm
    cases hindexes : ctx.indexes with
    | true =>
      rw [if_pos ⟨rfl, rfl⟩, if_pos rfl, Function.update_self]
      exact ⟨{}, rfl, rfl⟩
    | false =>
      rw [if_neg (by simp), if_neg (by simp)]
      exact hloose'
  · intro m hm
    have hmn : m ≠ n := by simpa using hm
    split
    · exact Function.update_of_ne hmn ..
    · rfl

theorem insertIntoGroup_decides (h : Sound ctx f k) (hs : ctx.schema.Built)
    (he : f.get? n = some e) (hloose : e.linked = false) {node : SchemaNode}
    (hnode : ctx.schema.nodes[e.schema]? = some node) (hparent : node.parent = p.bind f.kind?)
    {kind : SortKind} (hkind : node.sortKind? = some kind) {leader : NodeId}
    (hleader : (f.group k p e.schema).head? = some leader) :
    Decides (insertIntoGroup ctx leader n) f fun g => ∃ xs ys, Placing ctx f k p n e xs ys g ∧
      Settles f k node e.schema n xs ys := by
  obtain ⟨as, gx, gy, bs, hjoins⟩ := h.exists_joins hs he hloose hnode hkind hparent
  rw [hjoins.group_eq] at hleader
  have hne : gx ++ gy ≠ [] := List.ne_nil_of_mem (List.mem_of_head? hleader)
  have hmem : ∀ m ∈ gx ++ gy, f.isOf e.schema m = true := hjoins.together.within
  rcases hjoins.insertIntoGroup_eq hleader with ⟨_, _, _, hfull⟩ | ⟨a, hplace, hled, hsame⟩
  · exact Lands.intro hfull rfl
  · refine Lands.intro hplace ?_
    obtain ⟨c, hc⟩ := hjoins.chain hne
    refine ⟨as ++ gx, gy ++ bs, ⟨hjoins.split, he, hloose, hjoins.noKey, ?_,
      hjoins.sound_placed (hjoins.laid hc (.inl hne)) hled hsame, bare_anchored ..⟩, ?_⟩
    · rcases hjoins.beside with hb | hb | hb
      · exact .inl hb
      · refine .inr fun m t hm ht => ?_
        rw [hm, Option.any_some, isOf, decide_eq_true_eq, ht] at hb
        cases hb
        exact hjoins.noKey
      · obtain ⟨m, hm⟩ := List.exists_mem_of_ne_nil _ hne
        cases (hmem m hm).symm.trans (hb m (by simp only [List.mem_append] at hm ⊢; tauto))
    refine ⟨fun _ => ⟨?_, ?_⟩, by simp [hkind], ?_, hjoins.beside⟩
    · intro m hm hof
      rcases List.mem_append.1 hm with hm | hm
      · rw [hjoins.together.before m hm] at hof
        cases hof
      · exact hjoins.ahead m hm
    · intro m hm hof
      rcases List.mem_append.1 hm with hm | hm
      · exact hjoins.behind m hm
      · rw [hjoins.together.after m hm] at hof
        cases hof
    · intro hnone
      obtain ⟨m, hm⟩ := List.exists_mem_of_ne_nil _ hne
      have hnone := hnone m (by simp only [List.mem_append] at hm ⊢; tauto)
      rw [hmem m hm] at hnone
      cases hnone

theorem insertChild_atomic (h : Sound ctx f k) (hs : ctx.schema.Built) (p : Option NodeId)
    (n : NodeId) :
    Atomic (insertChild ctx p n) f fun g => ∃ e node xs ys,
      ctx.schema.nodes[e.schema]? = some node ∧ Placing ctx f k p n e xs ys g ∧
      Settles f k node e.schema n xs ys := by
  refine (requireUnlinked_guards n f).bind (fun _ => rfl) ?_
  intro helement
  obtain ⟨e, he, hloose⟩ := helement
  refine (requireParent_guards h.laid p he).bind (fun _ => rfl) ?_
  intro hfits
  obtain ⟨hp, node, hnode, hparent⟩ := hfits
  have hkind? : f.kind? n = some e.schema := by simp [kind?, he]
  refine Ensures.bind_look_ok (schemaNode_eq hkind? hnode) ?_
  refine Ensures.guard (fun _ => rfl) fun hkey => ?_
  refine Ensures.bind_look_ok (schemaOf_of_get? he) ?_
  refine Ensures.bind_look_ok (h.laid.runStart_eq hp e.schema) ?_
  have hkey : node.isKey = false := by simpa using hkey
  have hclaim : ∀ g, (∃ xs ys, Placing ctx f k p n e xs ys g ∧
      Settles f k node e.schema n xs ys) → ∃ e node xs ys,
      ctx.schema.nodes[e.schema]? = some node ∧ Placing ctx f k p n e xs ys g ∧
      Settles f k node e.schema n xs ys := by
    intro g hg
    obtain ⟨xs, ys, hplacing, hsettles⟩ := hg
    exact ⟨e, node, xs, ys, hnode, hplacing, hsettles⟩
  cases hkind : node.sortKind? with
  | none =>
    rw [if_pos Option.isNone_none]
    exact (appendInstance_decides h hs hp he hloose hnode hparent hkey hkind).atomic.mono hclaim
  | some kind =>
    rw [if_neg (by simp)]
    cases hleader : (f.group k p e.schema).head? with
    | none =>
      have hnone : ∀ m ∈ k p, f.isOf e.schema m = false := by
        simpa using List.filter_eq_nil_iff.1 (List.head?_eq_none_iff.1 hleader)
      exact (startGroup_decides h hs hp he hloose hnode hparent hkind hnone).atomic.mono hclaim
    | some leader =>
      exact (insertIntoGroup_decides h hs he hloose hnode hparent hkind hleader).atomic.mono hclaim

theorem appendSibling_atomic (h : Sound ctx f k) (hs : ctx.schema.Built) (sibling n : NodeId) :
    Atomic (appendSibling ctx sibling n) f fun g => ∃ p e node xs ys,
      ctx.schema.nodes[e.schema]? = some node ∧ Placing ctx f k p n e xs ys g ∧
      Settles f k node e.schema n xs ys := by
  refine (requireLinked_guards sibling f).bind (fun _ => rfl) ?_
  intro hsibling
  obtain ⟨es, hes, -⟩ := hsibling
  refine Ensures.bind_look_ok (element_of_get? hes) ?_
  exact (insertChild_atomic h hs es.parent n).mono fun g hg => ⟨_, hg⟩

end Forest

end InstanceTree
