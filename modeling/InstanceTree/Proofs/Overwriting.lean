import InstanceTree.Proofs.ChainInvariant
import InstanceTree.Proofs.Document.Export
import InstanceTree.Proofs.Document.Fitting

namespace InstanceTree

open Edit Forest

/-- The values that a member of an object has for the instances of a schema node: the items of the
array of a leaf-list or list, and a single value for a leaf or container. -/
def SchemaNode.spread (node : SchemaNode) (j : Json) : List Json :=
  match node.isSingle, j with
  | false, .arr items => items
  | _, j => [j]

def Json.Members.entries (s : Schema) (q : Option SchemaId) (ms : Json.Members) :
    List (SchemaId × Json) :=
  ms.flatMap fun m => match s.named q m.1 with
    | some t => (s.nodes[t]?.map (·.spread m.2)).getD [] |>.map (t, ·)
    | none => []

namespace Forest

def rivaled (ctx : Context) (f : Forest) (n : NodeId) (ns : List NodeId) : Bool :=
  (f.kind? n).any fun t => (ctx.schema.nodes[t]?).any (·.isSingle) && ns.any (f.isOf t)

/-- The siblings without those that a later instance of the same leaf or container follows. -/
def shown (ctx : Context) (f : Forest) : List NodeId → List NodeId
  | [] => []
  | n :: ns => if f.rivaled ctx n ns then f.shown ctx ns else n :: f.shown ctx ns

mutual

/-- A document has a value for an element, and recursively for those of its children that are
kept. -/
inductive Prints (ctx : Context) (f : Forest) (keep : List NodeId → List NodeId) :
    NodeId → Json → Prop
  | value {n : NodeId} {v : Value} : f.valueAt n = some v → Prints ctx f keep n v.toJson
  | object {n : NodeId} {ns : List NodeId} {ms : Json.Members} : f.valueAt n = none →
      f.children (some n) = .ok ns →
      PrintsEach ctx f keep (keep ns) (ms.entries ctx.schema (f.kind? n)) →
      Prints ctx f keep n (.obj ms)

inductive PrintsEach (ctx : Context) (f : Forest) (keep : List NodeId → List NodeId) :
    List NodeId → List (SchemaId × Json) → Prop
  | nil : PrintsEach ctx f keep [] []
  | cons {n : NodeId} {t : SchemaId} {j : Json} {ns : List NodeId}
      {entries : List (SchemaId × Json)} : f.kind? n = some t → Prints ctx f keep n j →
      PrintsEach ctx f keep ns entries → PrintsEach ctx f keep (n :: ns) ((t, j) :: entries)

end

inductive Within (f : Forest) (p : Option NodeId) : Option NodeId → Prop
  | here : Within f p p
  | child {q : Option NodeId} {ns : List NodeId} {n : NodeId} :
      Within f p q → f.children q = .ok ns → n ∈ ns → Within f p (some n)

/-- No two siblings are instances of one leaf or container. -/
def Apart (ctx : Context) (f : Forest) (ns : List NodeId) : Prop :=
  ∀ t node, ctx.schema.nodes[t]? = some node → node.isSingle = true →
    (ns.filter (f.isOf t)).length ≤ 1

variable {ctx : Context} {f : Forest} {keep : List NodeId → List NodeId} {p q : Option NodeId}
  {n : NodeId} {t : SchemaId} {node : SchemaNode} {ns ms : List NodeId}
  {entries : List (SchemaId × Json)}

theorem printsEach_iff : PrintsEach ctx f keep ns entries ↔
    List.Forall₂ (fun n e => f.kind? n = some e.1 ∧ Prints ctx f keep n e.2) ns entries := by
  constructor
  · intro h
    induction ns generalizing entries with
    | nil =>
      cases h
      exact .nil
    | cons n ns ih =>
      cases h with
      | cons hn hj hrest => exact .cons ⟨hn, hj⟩ (ih hrest)
  · intro h
    induction h with
    | nil => exact .nil
    | cons hn _ ih => exact .cons hn.1 hn.2 ih

theorem PrintsEach.length_eq (h : PrintsEach ctx f keep ns entries) :
    ns.length = entries.length :=
  (printsEach_iff.1 h).length_eq

theorem shown_sublist (ctx : Context) (f : Forest) (ns : List NodeId) :
    (f.shown ctx ns).Sublist ns := by
  induction ns with
  | nil => exact .slnil
  | cons n ns ih =>
    rw [shown]
    split
    · exact ih.cons n
    · exact ih.cons_cons n

theorem shown_cons_eq_self : f.shown ctx (n :: ns) = n :: ns ↔
    f.rivaled ctx n ns = false ∧ f.shown ctx ns = ns := by
  rw [shown]
  split
  · next hrival =>
    have hlen := (shown_sublist ctx f ns).length_le
    constructor
    · intro heq
      rw [heq, List.length_cons] at hlen
      omega
    · intro h
      cases hrival.symm.trans h.1
  · next hrival => simp [hrival]

theorem rivaled_eq_false (hn : f.kind? n = some t) : f.rivaled ctx n ns = false ↔
    ∀ node, ctx.schema.nodes[t]? = some node → node.isSingle = true → ns.filter (f.isOf t) = [] := by
  simp only [rivaled, hn, Option.any_some, Bool.and_eq_false_imp, List.filter_eq_nil_iff]
  cases ctx.schema.nodes[t]? <;> simp

theorem apart_cons (hn : (f.kind? n).isSome) : Apart ctx f (n :: ns) ↔
    f.rivaled ctx n ns = false ∧ Apart ctx f ns := by
  obtain ⟨u, hu⟩ := Option.isSome_iff_exists.1 hn
  rw [rivaled_eq_false hu]
  constructor
  · intro h
    constructor
    · intro node hnode hsingle
      have hle := h u node hnode hsingle
      have hself : f.isOf u n = true := by simp [isOf, hu]
      rw [List.filter_cons_of_pos hself, List.length_cons] at hle
      exact List.length_eq_zero_iff.1 (by omega)
    · intro t node hnode hsingle
      exact Nat.le_trans ((List.sublist_cons_self n ns).filter _).length_le (h t node hnode hsingle)
  · intro h t node hnode hsingle
    obtain ⟨hnone, hrest⟩ := h
    by_cases hself : f.isOf t n = true
    · have htu : u = t := by simpa [isOf, hu] using hself
      subst htu
      rw [List.filter_cons_of_pos hself, hnone node hnode hsingle]
      exact Nat.le_refl 1
    · rw [List.filter_cons_of_neg hself]
      exact hrest t node hnode hsingle

theorem shown_eq_self (hns : ∀ n ∈ ns, (f.kind? n).isSome) :
    f.shown ctx ns = ns ↔ Apart ctx f ns := by
  induction ns with
  | nil => simp [shown, Apart]
  | cons n ns ih =>
    obtain ⟨hn, hns⟩ := List.forall_mem_cons.1 hns
    rw [shown_cons_eq_self, apart_cons hn, ih hns]

theorem shown_group (hnode : ctx.schema.nodes[t]? = some node)
    (hms : ∀ m ∈ ms, f.kind? m = some t) (hns : ∀ m ∈ ns, f.isOf t m = false) :
    f.shown ctx (ms ++ ns) =
      (if node.isSingle then ms.getLast?.toList else ms) ++ f.shown ctx ns := by
  induction ms with
  | nil => simp
  | cons m ms ih =>
    obtain ⟨hm, hms⟩ := List.forall_mem_cons.1 hms
    have hnone : ns.any (f.isOf t) = false := by simpa using hns
    have hrival : f.rivaled ctx m (ms ++ ns) = (node.isSingle && !ms.isEmpty) := by
      simp only [rivaled, hm, Option.any_some, hnode, List.any_append, hnone, Bool.or_false]
      cases ms with
      | nil => simp
      | cons m' ms =>
        have hm' : f.isOf t m' = true := by simp [isOf, hms m' List.mem_cons_self]
        simp [hm']
    rw [List.cons_append, shown, hrival, ih hms]
    cases ms with
    | nil => cases node.isSingle <;> simp
    | cons m' ms => cases node.isSingle <;> simp

theorem within_of_mem (hq : f.Within (some n) q) (hp : f.children p = .ok ns) (hn : n ∈ ns) :
    f.Within p q := by
  induction hq with
  | here => exact .child .here hp hn
  | child _ hchildren hmem ih => exact .child ih hchildren hmem

end Forest

theorem SchemaNode.spread_gather (node : SchemaNode) {items : List Json} (hne : items ≠ []) :
    node.spread (node.gather items) = if node.isSingle then items.getLast?.toList else items := by
  unfold SchemaNode.spread SchemaNode.gather SchemaNode.isSingle
  cases node.kind <;> simp [List.getLastD_eq_getLast?, List.getLast?_eq_some_getLast hne]

theorem forall₂_getLast? {α β : Type} {R : α → β → Prop} {as : List α} {bs : List β}
    (h : List.Forall₂ R as bs) : List.Forall₂ R as.getLast?.toList bs.getLast?.toList := by
  induction h with
  | nil => exact .nil
  | @cons a b as bs hab hrest ih =>
    cases hrest with
    | nil => exact .cons hab .nil
    | cons => simpa only [List.getLast?_cons_cons] using ih

theorem entries_members_cons {s : Schema} (hs : s.Built) {t : SchemaId} {node : SchemaNode}
    (hnode : s.nodes[t]? = some node) {xs : List Tree} (hne : xs ≠ []) (a : Grove) :
    (Grove.members s ((t, xs) :: a)).entries s node.parent =
      (if node.isSingle then (Tree.items s xs).getLast?.toList else Tree.items s xs).map (t, ·) ++
        (Grove.members s a).entries s node.parent := by
  have hitems : Tree.items s xs ≠ [] := by
    rw [Tree.items_eq]
    simpa using hne
  rw [Grove.members_cons hnode, Json.Members.entries, List.flatMap_cons]
  simp only [hs.named_eq hnode, hnode, Option.map_some, Option.getD_some,
    node.spread_gather hitems]
  rfl

namespace Forest

variable {ctx : Context} {f : Forest} {keep : List NodeId → List NodeId}

mutual

theorem Depicts.prints (h : Laid ctx.schema f f.layout) (hs : ctx.schema.Built) : (x : Tree) →
    ∀ {n : NodeId}, (f.kind? n).isSome →
      (∀ q, f.Within (some n) q → keep (f.layout q) = f.shown ctx (f.layout q)) →
        Depicts f n x → Prints ctx f keep n (x.toJson ctx.schema)
  | .node (some v) _, _, _, _, ⟨hv, _⟩ => .value hv
  | .node none below, n, hn, hkeep, ⟨hv, hbelow⟩ => by
    obtain ⟨e, he, -⟩ := get?_of_kind? (Option.get_mem hn)
    have hchildren := h.children_eq (alive_some.2 ⟨e, he⟩)
    apply Prints.object hv hchildren
    rw [hkeep (some n) .here]
    exact Bears.printsEach h hs below (p := some n) (fun m hm => hm)
      (fun m hm q hq => hkeep q (within_of_mem hq hchildren hm)) hbelow

theorem DepictsAll.prints (h : Laid ctx.schema f f.layout) (hs : ctx.schema.Built) :
    (xs : List Tree) → ∀ {t : SchemaId} {ms : List NodeId},
      (∀ m ∈ ms, ∀ q, f.Within (some m) q → keep (f.layout q) = f.shown ctx (f.layout q)) →
        DepictsAll f t ms xs →
          List.Forall₂ (fun m j => f.kind? m = some t ∧ Prints ctx f keep m j) ms
            (Tree.items ctx.schema xs)
  | [], _, [], _, _ => .nil
  | x :: xs, _, m :: ms, hkeep, ⟨hm, hx, hxs⟩ =>
    .cons ⟨hm, Depicts.prints h hs x (by simp [hm]) (hkeep m List.mem_cons_self) hx⟩
      (DepictsAll.prints h hs xs (fun m' hm' => hkeep m' (List.mem_cons_of_mem _ hm')) hxs)

theorem Bears.printsEach (h : Laid ctx.schema f f.layout) (hs : ctx.schema.Built) : (a : Grove) →
    ∀ {p : Option NodeId} {ns : List NodeId}, (∀ m ∈ ns, m ∈ f.layout p) →
      (∀ m ∈ ns, ∀ q, f.Within (some m) q → keep (f.layout q) = f.shown ctx (f.layout q)) →
        Bears f ns a → PrintsEach ctx f keep (f.shown ctx ns)
          ((Grove.members ctx.schema a).entries ctx.schema (p.bind f.kind?))
  | [], _, _, _, _, hns => by
    cases hns
    exact .nil
  | (t, xs) :: rest, p, _, hmem, hkeep, ⟨ms, ns, heq, hne, hother, hxs, hrest⟩ => by
    subst heq
    obtain ⟨m, hm⟩ := List.exists_mem_of_ne_nil _ hne
    obtain ⟨node, hnode, hparent⟩ := h.node_of_mem (hmem m (List.mem_append_left _ hm))
      (hxs.kind_eq m hm)
    have hxs_ne : xs ≠ [] := by
      rintro rfl
      exact hne (List.length_eq_zero_iff.1 hxs.length_eq)
    have hprinted := DepictsAll.prints h hs xs
      (fun m hm => hkeep m (List.mem_append_left _ hm)) hxs
    have hbehind := Bears.printsEach h hs rest (p := p)
      (fun m hm => hmem m (List.mem_append_right _ hm))
      (fun m hm => hkeep m (List.mem_append_right _ hm)) hrest
    have hgroup : List.Forall₂ (fun m j => f.kind? m = some t ∧ Prints ctx f keep m j)
        (if node.isSingle then ms.getLast?.toList else ms)
        (if node.isSingle then (Tree.items ctx.schema xs).getLast?.toList
          else Tree.items ctx.schema xs) := by
      split
      · exact forall₂_getLast? hprinted
      · exact hprinted
    rw [printsEach_iff] at hbehind ⊢
    rw [shown_group hnode hxs.kind_eq hother, ← hparent, entries_members_cons hs hnode hxs_ne,
      hparent]
    exact List.rel_append (List.forall₂_map_right_iff.2 hgroup) hbehind

end

section Lossless

variable {p q : Option NodeId} {n : NodeId} {ns : List NodeId} {j : Json}
  {entries : List (SchemaId × Json)}

theorem Prints.object_of_valueless (hj : Prints ctx f keep n j) (hv : f.valueAt n = none) :
    ∃ ns, ∃ ms : Json.Members, j = .obj ms ∧ f.children (some n) = .ok ns ∧
      PrintsEach ctx f keep (keep ns) (ms.entries ctx.schema (f.kind? n)) := by
  cases hj with
  | value hsome => cases hv.symm.trans hsome
  | object _ hchildren hms => exact ⟨_, _, rfl, hchildren, hms⟩

theorem PrintsEach.of_mem {keep' : List NodeId → List NodeId}
    (h : PrintsEach ctx f keep ns entries) (h' : PrintsEach ctx f keep' ns entries) (hn : n ∈ ns) :
    ∃ j, Prints ctx f keep n j ∧ Prints ctx f keep' n j := by
  induction ns generalizing entries with
  | nil => cases hn
  | cons m ns ih =>
    cases h with
    | cons _ hj hrest =>
      cases h' with
      | cons _ hj' hrest' =>
        rcases List.mem_cons.1 hn with rfl | hn
        · exact ⟨_, hj, hj'⟩
        · exact ih hrest hrest' hn

theorem Within.alive (hq : f.Within p q) (h : Laid ctx.schema f f.layout) (hp : f.Alive p) :
    f.Alive q := by
  cases hq with
  | here => exact hp
  | child _ hns hn =>
    obtain ⟨-, rfl⟩ := h.eq_of_children hns
    obtain ⟨e, he, -⟩ := h.exists_of_mem hn
    exact alive_some.2 ⟨e, he⟩

/-- If all children are shown and printed as well as kept and printed, the same holds of the
children of every parent further down. -/
theorem Within.printsEach (h : Laid ctx.schema f f.layout) (hq : f.Within p q)
    (hns : f.children p = .ok ns) (hall : PrintsEach ctx f id ns entries)
    (hshown : PrintsEach ctx f (f.shown ctx) (f.shown ctx ns) entries) :
    ∀ l, f.children q = .ok l → ∃ below, PrintsEach ctx f id l below ∧
      PrintsEach ctx f (f.shown ctx) (f.shown ctx l) below := by
  induction hq with
  | here =>
    intro l hl
    cases hns.symm.trans hl
    exact ⟨entries, hall, hshown⟩
  | @child q ms n _ hms hn ih =>
    intro l hl
    obtain ⟨below, hkept, hleft⟩ := ih ms hms
    have hlen : (f.shown ctx ms).length = ms.length := hleft.length_eq.trans hkept.length_eq.symm
    rw [(shown_sublist ctx f ms).eq_of_length hlen] at hleft
    obtain ⟨j, hj, hj'⟩ := hkept.of_mem hleft hn
    cases hv : f.valueAt n with
    | some v =>
      have hnone : l = [] := (h.eq_of_children hl).2.trans (h.layout_of_value hv)
      subst hnone
      exact ⟨[], .nil, .nil⟩
    | none =>
      obtain ⟨l', ms', rfl, hl', hbelow⟩ := hj.object_of_valueless hv
      obtain ⟨l'', ms'', heq, hl'', hbelow'⟩ := hj'.object_of_valueless hv
      cases hl.symm.trans hl'
      cases hl.symm.trans hl''
      cases heq
      exact ⟨_, hbelow, hbelow'⟩

end Lossless

end Forest

/-- Of sibling instances of one leaf or container an export shows the last one, and it shows every
other element: each of these has a value of its own, in sibling order and recursively. So it loses
nothing just when nowhere below two siblings are instances of one leaf or container. -/
theorem Reachable.export_shows {ctx : Context} {f : Forest} (h : Reachable ctx f)
    (hs : ctx.schema.Built) {p : Option NodeId} (hp : f.Alive p) :
    ∃ ns, ∃ ms : Json.Members, f.children p = .ok ns ∧ f.toJson ctx p = .ok (.obj ms) ∧
      PrintsEach ctx f (f.shown ctx) (f.shown ctx ns)
        (ms.entries ctx.schema (p.bind f.kind?)) ∧
      (PrintsEach ctx f id ns (ms.entries ctx.schema (p.bind f.kind?)) ↔
        ∀ q l, f.Within p q → f.children q = .ok l → Apart ctx f l) := by
  obtain ⟨hsound, -⟩ := isSound_iff.1 (h.isSound hs)
  have hlaid := hsound.laid
  obtain ⟨a, ha, hexport⟩ := hlaid.exists_export hs hp
  have hchildren := hlaid.children_eq hp
  have hshown : PrintsEach ctx f (f.shown ctx) (f.shown ctx (f.layout p))
      ((Grove.members ctx.schema a).entries ctx.schema (p.bind f.kind?)) :=
    Bears.printsEach hlaid hs a (fun m hm => hm) (fun _ _ _ _ => rfl) ha
  have hknown : ∀ q, ∀ n ∈ f.layout q, (f.kind? n).isSome := fun q n hn => hlaid.isSome_of_mem hn
  refine ⟨f.layout p, _, hchildren, hexport, hshown, ?_⟩
  constructor
  · intro hall q l hq hl
    obtain ⟨below, hkept, hleft⟩ := hq.printsEach hlaid hchildren hall hshown l hl
    obtain ⟨-, rfl⟩ := hlaid.eq_of_children hl
    rw [← shown_eq_self (hknown q)]
    exact (shown_sublist ctx f _).eq_of_length (hleft.length_eq.trans hkept.length_eq.symm)
  · intro hapart
    have hself : ∀ q, f.Within p q → f.shown ctx (f.layout q) = f.layout q := by
      intro q hq
      exact (shown_eq_self (hknown q)).2 (hapart q _ hq (hlaid.children_eq (hq.alive hlaid hp)))
    have hall : PrintsEach ctx f id (f.shown ctx (f.layout p))
        ((Grove.members ctx.schema a).entries ctx.schema (p.bind f.kind?)) :=
      Bears.printsEach hlaid hs a (fun m hm => hm)
        (fun m hm q hq => (hself q (within_of_mem hq hchildren hm)).symm) ha
    rwa [hself p .here] at hall

theorem exists_entry_with_remarks : ∃ f, Reachable (.ofEntries true) f ∧
    f.kind? 0 = some 0 ∧ f.children (some 0) = .ok [1, 2, 3] ∧
    f.shown (.ofEntries true) [1, 2, 3] = [1, 3] ∧
    f.toJson (.ofEntries true) (some 0) =
      .ok (.obj [("number", .num (.natural 7)), ("remark", .str "second")]) := by
  have hlist := ((Reachable.empty : Reachable (.ofEntries true) .empty).step
    (.createList 0 [.uint 7]) rfl).step (.insertChild none 0) rfl
  have hfirst := (hlist.step (.createTerm 2 (.string "first")) rfl).step
    (.insertChild (some 0) 2) rfl
  have hsecond := (hfirst.step (.createTerm 2 (.string "second")) rfl).step
    (.insertChild (some 0) 3) rfl
  exact ⟨_, hsecond, rfl, rfl, rfl, rfl⟩

/-- Of the two remarks of an entry an export shows the second one only. -/
theorem Reachable.export_shows_second_remark : ∃ f, Reachable (.ofEntries true) f ∧
    f.Alive (some 0) ∧ f.children (some 0) = .ok [1, 2, 3] ∧ ∃ ms : Json.Members,
      f.toJson (.ofEntries true) (some 0) = .ok (.obj ms) ∧
      PrintsEach (.ofEntries true) f (f.shown (.ofEntries true)) [1, 3]
        (ms.entries Schema.entries (f.kind? 0)) := by
  obtain ⟨f, h, hkind, hchildren, hshown, -⟩ := exists_entry_with_remarks
  have hp : f.Alive (some 0) := alive_iff.2 (by simp [hkind])
  obtain ⟨ns, ms, hns, hms, hprints, -⟩ := h.export_shows Schema.entries_built hp
  cases hchildren.symm.trans hns
  rw [hshown] at hprints
  exact ⟨f, h, hp, hchildren, ms, hms, hprints⟩

/-- An export does not show every element: the first remark of an entry is overwritten by the
second one. -/
theorem overwritten_remark : ∃ f, Reachable (.ofEntries true) f ∧ f.Alive (some 0) ∧
    ¬ ∃ ns, ∃ ms : Json.Members, f.children (some 0) = .ok ns ∧
      f.toJson (.ofEntries true) (some 0) = .ok (.obj ms) ∧
      PrintsEach (.ofEntries true) f id ns (ms.entries Schema.entries (f.kind? 0)) := by
  obtain ⟨f, h, hkind, hchildren, -, hexport⟩ := exists_entry_with_remarks
  refine ⟨f, h, alive_iff.2 (by simp [hkind]), fun hall => ?_⟩
  obtain ⟨ns, ms, hns, hms, hprints⟩ := hall
  cases hchildren.symm.trans hns
  cases hexport.symm.trans hms
  have hlen := hprints.length_eq
  rw [hkind] at hlen
  revert hlen
  decide

end InstanceTree
