import InstanceTree.Proofs.ChainInvariant
import InstanceTree.Proofs.Document.Completion
import InstanceTree.Proofs.Document.Export

namespace InstanceTree

open Edit Forest

/-- The schema nodes and the elements that an operation names exist. -/
def Operation.Refers (ctx : Context) (f : Forest) : Operation → Prop
  | createTerm t _ => t < ctx.schema.nodes.size
  | createContainer t => t < ctx.schema.nodes.size
  | createList t _ => t < ctx.schema.nodes.size
  | insertChild parent n => f.Alive parent ∧ f.Alive (some n)
  | insertBefore pivot n => f.Alive (some pivot) ∧ f.Alive (some n)
  | insertAfter pivot n => f.Alive (some pivot) ∧ f.Alive (some n)
  | appendSibling sibling n => f.Alive (some sibling) ∧ f.Alive (some n)
  | unlink n => f.Alive (some n)
  | free n => f.Alive (some n)
  | addMetadata n _ _ => f.Alive (some n)
  | removeMetadata n _ => f.Alive (some n)
  | importDocument parent _ => f.Alive parent

/-- How many elements an operation stores if it is not refused. -/
def Operation.demand (ctx : Context) (f : Forest) : Operation → Nat
  | createTerm _ _ => 1
  | createContainer _ => 1
  | createList _ values => 1 + values.length
  | importDocument parent document => ctx.schema.demand (parent.bind f.kind?) document
  | _ => 0

/-- An edit has a result, unless handles run out while it stores `n` elements. -/
def Edit.EndsWithin {α : Type} (n : Nat) (op : Edit α) (f : Forest) : Prop :=
  Ends op f ∨ Overflows n op f

theorem Edit.Fits.endsWithin {α : Type} {n : Nat} {op : Edit α} {f : Forest}
    {P : Except Refusal α → Forest → Prop} (h : Fits n op f P) : EndsWithin n op f :=
  h.imp_left Lands.ends

/-- In a sound forest every operation on what exists comes to an end without a fault, if there are
handles for what it stores. -/
theorem Operation.perform_ends {ctx : Context} {f : Forest} (h : IsSound ctx f)
    (hs : ctx.schema.Built) (op : Operation) (hop : op.Refers ctx f) :
    EndsWithin (op.demand ctx f) (op.perform ctx) f := by
  obtain ⟨hsound, -⟩ := isSound_iff.1 h
  have hnode : ∀ t, t < ctx.schema.nodes.size → ∃ node, ctx.schema.nodes[t]? = some node :=
    fun t ht => ⟨ctx.schema.nodes[t], Array.getElem?_eq_getElem ht⟩
  cases op with
  | createTerm t v =>
    obtain ⟨node, hnode⟩ := hnode t hop
    exact ((createTerm_fits hsound.laid.length_vacant_le hnode v).report _).endsWithin
  | createContainer t =>
    obtain ⟨node, hnode⟩ := hnode t hop
    exact ((createContainer_fits hsound.laid.length_vacant_le hnode).report _).endsWithin
  | createList t vs =>
    obtain ⟨node, hnode⟩ := hnode t hop
    exact ((createList_fits hsound.laid hs hnode vs).report _).endsWithin
  | insertChild parent n =>
    obtain ⟨hparent, hn⟩ := hop
    obtain ⟨e, he⟩ := hn n rfl
    exact .inl ((insertChild_ends hsound hs hparent he).report _)
  | insertBefore pivot n =>
    obtain ⟨hpivot, hn⟩ := hop
    obtain ⟨ep, hep⟩ := hpivot pivot rfl
    obtain ⟨e, he⟩ := hn n rfl
    exact .inl ((insertBefore_ends hsound hs hep he).report _)
  | insertAfter pivot n =>
    obtain ⟨hpivot, hn⟩ := hop
    obtain ⟨ep, hep⟩ := hpivot pivot rfl
    obtain ⟨e, he⟩ := hn n rfl
    exact .inl ((insertAfter_ends hsound hs hep he).report _)
  | appendSibling sibling n =>
    obtain ⟨hsibling, hn⟩ := hop
    obtain ⟨es, hes⟩ := hsibling sibling rfl
    obtain ⟨e, he⟩ := hn n rfl
    exact .inl ((appendSibling_ends hsound hs hes he).report _)
  | unlink n =>
    obtain ⟨e, he⟩ := hop n rfl
    exact .inl ((unlink_ends hsound hs he).report _)
  | free n =>
    obtain ⟨e, he⟩ := hop n rfl
    exact .inl ((free_ends hsound hs he).report _)
  | addMetadata n name value =>
    obtain ⟨e, he⟩ := hop n rfl
    exact .inl ((addMetadata_ends he name value).report _)
  | removeMetadata n name =>
    obtain ⟨e, he⟩ := hop n rfl
    exact .inl ((removeMetadata_ends he name).report _)
  | importDocument parent document =>
    exact ((ofJson_grows hs h hop document).report _ |> Fits.endsWithin)

theorem Sound.keyRow_ok {ctx : Context} {f : Forest} {k : Layout} (h : Sound ctx f k) {n : NodeId}
    {e : Element} (he : f.get? n = some e) : ∃ row, f.keyRow ctx n = .ok row := by
  obtain ⟨node, hnode, -⟩ := schemaNode_ok h.laid he
  refine ⟨node.keys.filterMap (f.keyValue k n), ?_⟩
  simp only [keyRow, hnode, ok_bind]
  exact h.laid.valuesBelow_eq he node.keys

/-- In a reachable forest nothing that is asked of existing elements and schema nodes meets a
fault, as long as there are handles for the elements that it stores: neither an operation, nor the
key values of an element, nor the export of a document. -/
theorem Reachable.faults_only_if_full {ctx : Context} {f : Forest} (h : Reachable ctx f)
    (hs : ctx.schema.Built) :
    (∀ op : Operation, op.Refers ctx f →
      (∃ r g, (op.perform ctx).perform f = .ok (r, g)) ∨
      ((op.perform ctx).perform f = .error .storeFull ∧
        handleCount < f.size + op.demand ctx f)) ∧
    (∀ n, f.Alive (some n) → ∃ row, f.keyRow ctx n = .ok row) ∧
    ∀ p, f.Alive p → ∃ document, f.toJson ctx p = .ok document := by
  have hsound := h.isSound hs
  refine ⟨?_, ?_, ?_⟩
  · intro op hop
    refine (op.perform_ends hsound hs hop).imp_left ?_
    rintro ⟨⟨r, g⟩, hr⟩
    exact ⟨r, g, hr⟩
  · intro n hn
    obtain ⟨e, he⟩ := hn n rfl
    exact (isSound_iff.1 hsound).1.keyRow_ok he
  · intro p hp
    obtain ⟨a, -, hexport⟩ := (isSound_iff.1 hsound).1.laid.exists_export hs hp
    exact ⟨_, hexport⟩

/-- An entry can be taken out of the index of its group, though it was put there before another
one with the same number; that stores nothing. -/
theorem Reachable.faults_only_if_full_of_entries : ∃ f, Reachable (.ofEntries true) f ∧
    f.children none = .ok [0, 2] ∧ (Operation.free 0).Refers (.ofEntries true) f ∧
    ∃ r g, ((Operation.free 0).perform (.ofEntries true)).perform f = .ok (r, g) := by
  have hfirst := ((Reachable.empty : Reachable (.ofEntries true) .empty).step
    (.createList 0 [.uint 7]) rfl).step (.insertChild none 0) rfl
  have h := (hfirst.step (.createList 0 [.uint 7]) rfl).step (.insertChild none 2) rfl
  obtain ⟨f, h, hchildren, hrefers⟩ : ∃ f, Reachable (.ofEntries true) f ∧
      f.children none = .ok [0, 2] ∧ (Operation.free 0).Refers (.ofEntries true) f :=
    ⟨_, h, rfl, alive_some.2 ⟨_, rfl⟩⟩
  have hfree := (h.faults_only_if_full Schema.entries_built).1 (.free 0) hrefers
  refine ⟨f, h, hchildren, hrefers, hfree.resolve_right fun hfull => ?_⟩
  exact absurd hfull.2 (Nat.not_lt.2 (isSound_iff.1 (h.isSound Schema.entries_built)).1.laid.size_le)

section Full

variable {f : Forest} (h : Reachable (.ofNumbers true) f)

include h

theorem Reachable.createTerm_cases (hvacant : f.vacant = []) :
    (f.slots.size < handleCount ∧ ∃ g, Reachable (.ofNumbers true) g ∧ g.vacant = [] ∧
      g.slots.size = f.slots.size + 1) ∨
    ((Operation.createTerm 0 (.uint 5)).perform (.ofNumbers true)).perform f =
      .error .storeFull := by
  have hlaid := (isSound_iff.1 (h.isSound Schema.numbers_built)).1.laid
  obtain ⟨node, hnode, htype⟩ : ∃ node, (Context.ofNumbers true).schema.nodes[0]? = some node ∧
      node.valueType? = some .uint := ⟨_, rfl, rfl⟩
  rcases createTerm_fits hlaid.length_vacant_le hnode (.uint 5) with hlands | hfull
  · obtain ⟨r, g, hr, hstored, -⟩ := hlands
    cases r with
    | error why => exact absurd htype hstored.1
    | ok n =>
      rcases allocate_eq_ok hstored.2 with ⟨-, hroom, rfl, rfl⟩ | ⟨rest, hcons, -⟩
      · refine .inl ⟨hroom, _, h.step (.createTerm 0 (.uint 5)) (perform_bind_ok hr), hvacant, ?_⟩
        simp
      · cases hvacant.symm.trans hcons
  · refine .inr ?_
    rw [Operation.perform, perform_bind, hfull.1]
    rfl

end Full

theorem Reachable.exists_of_size {n : Nat} (hn : n ≤ handleCount) :
    ∃ f, Reachable (.ofNumbers true) f ∧ f.vacant = [] ∧ f.slots.size = n := by
  induction n with
  | zero => exact ⟨.empty, .empty, rfl, rfl⟩
  | succ n ih =>
    obtain ⟨f, h, hvacant, rfl⟩ := ih (Nat.le_of_succ_le hn)
    rcases h.createTerm_cases hvacant with ⟨-, g, hg⟩ | hfull
    · exact ⟨g, hg⟩
    · have hsound := h.isSound Schema.numbers_built
      have hroom : f.size + 1 ≤ handleCount := by simpa [size, hvacant] using hn
      rcases Operation.perform_ends hsound Schema.numbers_built (.createTerm 0 (.uint 5))
        Nat.zero_lt_one with ⟨out, hout⟩ | hover
      · cases hout.symm.trans hfull
      · exact absurd hover.2 (Nat.not_lt.2 hroom)

/-- When every handle is given to an element, to create one more is a fault. -/
theorem Reachable.createTerm_faults_of_full : ∃ f, Reachable (.ofNumbers true) f ∧
    f.size = handleCount ∧ (Operation.createTerm 0 (.uint 5)).Refers (.ofNumbers true) f ∧
    ((Operation.createTerm 0 (.uint 5)).perform (.ofNumbers true)).perform f =
      .error .storeFull := by
  obtain ⟨f, h, hvacant, hsize⟩ := exists_of_size (Nat.le_refl handleCount)
  refine ⟨f, h, by simpa [size, hvacant] using hsize, Nat.zero_lt_one, ?_⟩
  rcases h.createTerm_cases hvacant with ⟨hroom, -⟩ | hfull
  · exact absurd hsize (Nat.ne_of_lt hroom)
  · exact hfull

end InstanceTree
