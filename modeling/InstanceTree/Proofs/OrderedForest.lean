import InstanceTree.Proofs.Operations.Runs

namespace InstanceTree

open Edit Forest

namespace Forest

/-- Below `p` the children `xs ++ ys` have become `l`; nothing else about children and payloads
has changed. -/
structure Rechained (f g : Forest) (p : Option NodeId) (old new : List NodeId) : Prop where
  before : f.children p = .ok old
  after : g.children p = .ok new
  others : ∀ q, q ≠ p → g.children q = f.children q
  payloads : ∀ i, g.payload i = f.payload i

/-- Where an element of a schema node is placed by itself: in a sorted group behind the members
that are not greater and in front of those that are; behind the last instance of a schema node
that is not sorted; at the end, if it is the first instance. -/
structure Ordered (ctx : Context) (f : Forest) (node : SchemaNode) (t : SchemaId) (n : NodeId)
    (xs ys : List NodeId) : Prop where
  sorted : node.sortKind?.isSome →
    (∀ m ∈ xs, f.isOf t m = true → ∃ sign, f.compare ctx m n = .ok sign ∧ sign ≠ .gt) ∧
    ∀ m ∈ ys, f.isOf t m = true → f.compare ctx m n = .ok .gt
  unsorted : node.sortKind? = none → (xs ++ ys).any (f.isOf t) = true →
    xs.getLast?.any (f.isOf t) = true ∧ ∀ m ∈ ys, f.isOf t m = false
  first : (xs ++ ys).any (f.isOf t) = false → ys = []
  beside : (xs ++ ys).any (f.isOf t) = true →
    xs.getLast?.any (f.isOf t) = true ∨ ys.head?.any (f.isOf t) = true

theorem payload_eq_none_iff {f : Forest} {i : NodeId} : f.payload i = none ↔ f.get? i = none :=
  Option.map_eq_none_iff

theorem alive_of_payload {f g : Forest} (h : ∀ i, g.payload i = f.payload i)
    {link : Option NodeId} (hl : f.Alive link) : g.Alive link := by
  intro i hi
  obtain ⟨e, he⟩ := hl i hi
  apply Option.ne_none_iff_exists'.1
  intro hdead
  rw [← payload_eq_none_iff, h i, payload_eq_none_iff, he] at hdead
  cases hdead

theorem children_of_dead {f : Forest} {i : NodeId} (h : f.get? i = none) :
    f.children (some i) = .error (.notLive i) := by
  simp only [children, firstChild, children?, element_of_dead h]
  rfl

theorem rechained {ctx : Context} {f g : Forest} {k : Layout} {p : Option NodeId}
    {l : List NodeId} (hf : Sound ctx f k) (hg : Sound ctx g (Function.update k p l))
    (hp : f.Alive p) (hpayload : ∀ i, g.payload i = f.payload i) : Rechained f g p (k p) l := by
  have halive : ∀ {q}, f.Alive q → g.Alive q := alive_of_payload hpayload
  refine ⟨hf.laid.children_eq hp, ?_, ?_, hpayload⟩
  · rw [hg.laid.children_eq (halive hp), Function.update_self]
  · intro q hq
    by_cases hlive : f.Alive q
    · rw [hf.laid.children_eq hlive, hg.laid.children_eq (halive hlive),
        Function.update_of_ne hq]
    · obtain ⟨i, rfl, hdead⟩ : ∃ i, q = some i ∧ f.get? i = none := by
        simp only [Alive, not_forall, not_exists] at hlive
        obtain ⟨i, rfl, hi⟩ := hlive
        exact ⟨i, rfl, Option.eq_none_iff_forall_ne_some.2 hi⟩
      have hdead' : g.get? i = none := by
        rw [← payload_eq_none_iff, hpayload, payload_eq_none_iff, hdead]
      rw [children_of_dead hdead, children_of_dead hdead']

variable {ctx : Context} {f g : Forest} {k : Layout} {p : Option NodeId} {n : NodeId}
  {e : Element} {xs ys : List NodeId}

theorem Placing.rechained (h : Placing ctx f k p n e xs ys g) (hf : Sound ctx f k) :
    Rechained f g p (xs ++ ys) (xs ++ n :: ys) := by
  have hp := h.sound.laid.alive_of_mem (p := p) (n := n) (by simp)
  rw [← h.split]
  exact Forest.rechained hf h.sound (alive_of_payload (fun i => (h.payload_eq i).symm) hp)
    h.payload_eq

theorem Removing.rechained (h : Removing ctx f k p n e xs ys g) (hf : Sound ctx f k) :
    Rechained f g p (xs ++ n :: ys) (xs ++ ys) := by
  have hp := hf.laid.alive_of_mem (p := p) (n := n) (by simp [h.split])
  rw [← h.split]
  exact Forest.rechained hf h.sound hp h.payload_eq

/-- The place that an element gets by itself is the one that the comparison asks for. -/
theorem Settles.ordered (hf : Sound ctx f k) (hs : ctx.schema.Built) (he : f.get? n = some e)
    {node : SchemaNode} (hnode : ctx.schema.nodes[e.schema]? = some node)
    (h : Settles f k node e.schema n xs ys) : Ordered ctx f node e.schema n xs ys := by
  have hkind : f.kind? n = some e.schema := by simp [kind?, he]
  constructor
  case sorted =>
    intro hsorted
    obtain ⟨kind, hkind'⟩ := Option.isSome_iff_exists.1 hsorted
    have hcompare : ∀ m, f.isOf e.schema m = true →
        f.compare ctx m n = .ok (f.rowOrder k node m n) := fun m hm =>
      hf.laid.compare_eq hs hf.keyed hnode hkind' (by simpa [isOf] using hm) hkind
    obtain ⟨hx, hy⟩ := h.sorted hsorted
    refine ⟨fun m hm hof => ⟨_, hcompare m hof, hx m hm hof⟩, fun m hm hof => ?_⟩
    rw [hcompare m hof, hy m hm hof]
  case unsorted => exact h.unsorted
  case first =>
    intro hnone
    exact h.first fun m hm => by simpa using List.any_eq_false.1 hnone m hm
  case beside =>
    intro hany
    rcases h.beside with hb | hb | hb
    · exact .inl hb
    · exact .inr hb
    · obtain ⟨m, hm, hof⟩ := List.any_eq_true.1 hany
      rw [hb m hm] at hof
      cases hof

theorem insertChild_rechained (hf : Sound ctx f k) (hs : ctx.schema.Built)
    (h : (insertChild ctx p n).perform f = .ok (.ok (), g)) : ∃ xs ys t node,
      f.schemaOf n = .ok t ∧ ctx.schema.nodes[t]? = some node ∧
      Ordered ctx f node t n xs ys ∧ Rechained f g p (xs ++ ys) (xs ++ n :: ys) := by
  obtain ⟨e, node, xs, ys, hnode, hplacing, hsettles⟩ := insertChild_atomic hf hs p n _ _ h
  exact ⟨xs, ys, e.schema, node, schemaOf_of_get? hplacing.lives, hnode,
    hsettles.ordered hf hs hplacing.lives hnode, hplacing.rechained hf⟩

/-- What is appended to a linked element is inserted below the parent of that one. -/
theorem insertChild_of_appendSibling {sibling : NodeId}
    (h : (appendSibling ctx sibling n).perform f = .ok (.ok (), g)) :
    ∃ e, f.get? sibling = some e ∧ e.linked = true ∧
      (insertChild ctx e.parent n).perform f = .ok (.ok (), g) := by
  refine (requireLinked_guards sibling f).bind (R := fun r g => r = .ok () → ∃ e,
    f.get? sibling = some e ∧ e.linked = true ∧
      (insertChild ctx e.parent n).perform f = .ok (.ok (), g)) nofun ?_ _ _ h rfl
  rintro ⟨e, he, hlinked⟩
  refine Ensures.bind_look_ok (element_of_get? he) fun r g' hr heq => ?_
  exact ⟨e, he, hlinked, heq ▸ hr⟩

end Forest

/-- A reachable forest is an ordered forest: an insertion or a removal that succeeds changes one
sequence of children, at the place that is asked for. -/
theorem Reachable.refines_ordered_forest {ctx : Context} {f g : Forest} (h : Reachable ctx f)
    (hs : ctx.schema.Built) :
    (∀ p n, (insertChild ctx p n).perform f = .ok (.ok (), g) → ∃ xs ys t node,
      f.schemaOf n = .ok t ∧ ctx.schema.nodes[t]? = some node ∧
      Ordered ctx f node t n xs ys ∧ Rechained f g p (xs ++ ys) (xs ++ n :: ys)) ∧
    (∀ pivot n, (insertBefore ctx pivot n).perform f = .ok (.ok (), g) → ∃ p xs ys,
      Rechained f g p (xs ++ pivot :: ys) (xs ++ n :: pivot :: ys)) ∧
    (∀ pivot n, (insertAfter ctx pivot n).perform f = .ok (.ok (), g) → ∃ p xs ys,
      Rechained f g p (xs ++ pivot :: ys) (xs ++ pivot :: n :: ys)) ∧
    ∀ n, (unlink ctx n).perform f = .ok (.ok (), g) → ∃ p xs ys,
      p ≠ some n ∧ Rechained f g p (xs ++ n :: ys) (xs ++ ys) := by
  obtain ⟨k, hf⟩ := h.sound hs
  refine ⟨?_, ?_, ?_, ?_⟩
  · exact fun p n hop => insertChild_rechained hf hs hop
  · intro pivot n hop
    obtain ⟨p, e, xs, ys, hplacing⟩ := insertBefore_atomic hf hs pivot n _ _ hop
    exact ⟨p, xs, ys, hplacing.rechained hf⟩
  · intro pivot n hop
    obtain ⟨p, e, xs, ys, hplacing⟩ := insertAfter_atomic hf hs pivot n _ _ hop
    exact ⟨p, xs, ys, by simpa using hplacing.rechained hf⟩
  · intro n hop
    obtain ⟨p, e, xs, ys, hremoving⟩ := unlink_atomic hf hs n _ _ hop
    refine ⟨p, xs, ys, ?_, hremoving.rechained hf⟩
    intro heq
    subst heq
    exact hf.laid.not_mem_self (n := n) hs (by simp [hremoving.split])

/-- A number takes its place among other numbers. -/
theorem Reachable.refines_ordered_forest_of_number : ∃ f g, Reachable (.ofNumbers false) f ∧
    f.children none = .ok [0] ∧ (insertChild (.ofNumbers false) none 1).perform f =
      .ok (.ok (), g) ∧ ∃ xs ys t node, Ordered (.ofNumbers false) f node t 1 xs ys ∧
        Rechained f g none (xs ++ ys) (xs ++ 1 :: ys) := by
  have hfirst := ((Reachable.empty : Reachable (.ofNumbers false) .empty).step
    (.createTerm 0 (.uint 5)) rfl).step (.insertChild none 0) rfl
  have h := hfirst.step (.createTerm 0 (.uint 3)) rfl
  obtain ⟨xs, ys, t, node, -, -, hordered, hrechained⟩ :=
    (h.refines_ordered_forest Schema.numbers_built).1 none 1 rfl
  exact ⟨_, _, h, rfl, rfl, xs, ys, t, node, hordered, hrechained⟩

/-- An element that is appended to a sibling takes the place where it belongs among the siblings of
that one, which need not be behind it. -/
theorem Reachable.appends_in_order {ctx : Context} {f g : Forest} (h : Reachable ctx f)
    (hs : ctx.schema.Built) {sibling n : NodeId}
    (hop : (appendSibling ctx sibling n).perform f = .ok (.ok (), g)) : ∃ p xs ys t node,
      sibling ∈ xs ++ ys ∧ f.schemaOf n = .ok t ∧ ctx.schema.nodes[t]? = some node ∧
      Ordered ctx f node t n xs ys ∧ Rechained f g p (xs ++ ys) (xs ++ n :: ys) := by
  obtain ⟨k, hf⟩ := h.sound hs
  obtain ⟨e, he, hlinked, hinsert⟩ := insertChild_of_appendSibling hop
  obtain ⟨xs, ys, t, node, ht, hnode, hordered, hrechained⟩ :=
    insertChild_rechained hf hs hinsert
  have hmem : sibling ∈ k e.parent := hf.laid.placed sibling e he hlinked
  have hchildren := hf.laid.children_eq (hf.laid.alive_of_mem hmem)
  have hsplit : k e.parent = xs ++ ys := Except.ok.inj (hchildren.symm.trans hrechained.before)
  exact ⟨e.parent, xs, ys, t, node, hsplit ▸ hmem, ht, hnode, hordered, hrechained⟩

end InstanceTree
