import InstanceTree.Proofs.Schema

namespace InstanceTree.Schema

variable {s s' : Schema} {parent : Option SchemaId} {id list : SchemaId} {name : String}
  {kind : SchemaKind} {orderedBy : OrderedBy} {keys : List (String × ValueType)}
  {ids : List SchemaId} {node : SchemaNode}

theorem numberAt_eq {place : Nat} (h : place < handleCount) : numberAt place = place :=
  Nat.mod_eq_of_lt h

theorem size_modify (f : SchemaNode → SchemaNode) :
    (s.modify id f).nodes.size = s.nodes.size := by
  simp [modify]

theorem size_register : (s.register parent id).nodes.size = s.nodes.size := by
  cases parent with
  | none => rfl
  | some p => exact size_modify _

theorem size_push (h : s.push node = .ok (s', id)) : s'.nodes.size = s.nodes.size + 1 := by
  simp only [push, bind_eq_ok] at h
  obtain ⟨s₁, henter, heq⟩ := h
  cases heq
  rw [(enter_eq_ok henter).1, size_register, Array.size_push]

/-- As long as there are numbers, a node goes by its place. -/
theorem push_eq_add (h : s.nodes.size < handleCount) :
    s.push ⟨name, kind, parent, orderedBy, false, []⟩ = s.add parent name kind orderedBy false := by
  simp only [push, add, numberAt_eq h]

theorem register_mark (node : SchemaNode) :
    (({ s with nodes := s.nodes.push node } : Schema).register parent s.nodes.size).modify
        s.nodes.size (fun n => { n with isKey := true }) =
      ({ s with nodes := s.nodes.push { node with isKey := true } } : Schema).register parent
        s.nodes.size := by
  cases parent with
  | none =>
    simp only [register, modify, Schema.mk.injEq, and_true]
    apply Array.ext_getElem?
    intro i
    rw [Array.getElem?_modify, Array.getElem?_push, Array.getElem?_push]
    by_cases hi : i = s.nodes.size
    · simp [hi]
    · simp [hi, Ne.symm hi]
  | some p =>
    simp only [register, modify, Schema.mk.injEq, and_true]
    apply Array.ext_getElem?
    intro i
    rw [Array.getElem?_modify, Array.getElem?_modify, Array.getElem?_modify, Array.getElem?_push,
      Array.getElem?_push]
    by_cases hi : i = s.nodes.size
    · subst hi
      by_cases hp : p = s.nodes.size <;> simp [hp]
    · simp [hi, Ne.symm hi]

/-- A leaf that is marked as a key once it is there might have been added as one. -/
theorem add_marked (h : s.add parent name kind orderedBy false = .ok (s', id)) :
    s.add parent name kind orderedBy true =
      .ok (s'.modify id fun n => { n with isKey := true }, id) := by
  simp only [add, enter, bind_eq_ok] at h
  obtain ⟨s₁, ⟨u, hparent, found, hfound, h⟩, heq⟩ := h
  cases heq
  split at h
  · cases h
  · next hnone =>
    cases h
    simp only [add, enter, hparent, hfound, ok_bind, if_neg hnone, register_mark]
    rfl

theorem size_le_of_pushKeys (h : pushKeys list s keys = .ok (s', ids)) :
    s.nodes.size ≤ s'.nodes.size := by
  induction keys generalizing s ids with
  | nil =>
    cases h
    exact Nat.le_refl _
  | cons key rest ih =>
    simp only [pushKeys, bind_eq_ok] at h
    obtain ⟨⟨s₁, id⟩, hadd, ⟨s₂, rest'⟩, hrest, heq⟩ := h
    cases heq
    have hle := ih hrest
    rw [size_modify, size_push hadd] at hle
    exact Nat.le_of_succ_le hle

theorem addKeys_of_pushKeys (h : pushKeys list s keys = .ok (s', ids))
    (hsize : s'.nodes.size ≤ handleCount) : addKeys list s keys = .ok (s', ids) := by
  induction keys generalizing s ids with
  | nil => exact h
  | cons key rest ih =>
    simp only [pushKeys, bind_eq_ok] at h
    obtain ⟨⟨s₁, id⟩, hadd, ⟨s₂, rest'⟩, hrest, heq⟩ := h
    cases heq
    have hle := size_le_of_pushKeys hrest
    rw [size_modify, size_push hadd] at hle
    have hplace := (push_eq_add (Nat.le_trans hle hsize)).symm.trans hadd
    simp only [addKeys, add_marked hplace, ok_bind, ih hrest]
    rfl

theorem size_lt_of_addList (h : s.addList parent name keys orderedBy = .ok (s', id)) :
    s.nodes.size < s'.nodes.size := by
  simp only [addList, bind_eq_ok] at h
  obtain ⟨⟨s₁, list⟩, hadd, ⟨s₂, ids⟩, hkeys, heq⟩ := h
  cases heq
  have hle := size_le_of_pushKeys hkeys
  rw [size_push hadd] at hle
  rw [size_modify]
  exact hle

theorem addKeyed_of_addList (h : s.addList parent name keys orderedBy = .ok (s', id))
    (hsize : s'.nodes.size ≤ handleCount) :
    s.addKeyed parent name keys orderedBy = .ok (s', id) := by
  have hlt := Nat.lt_of_lt_of_le (size_lt_of_addList h) hsize
  simp only [addList, bind_eq_ok] at h
  obtain ⟨⟨s₁, list⟩, hadd, ⟨s₂, ids⟩, hkeys, heq⟩ := h
  cases heq
  rw [size_modify] at hsize
  have hplace := (push_eq_add hlt).symm.trans hadd
  simp only [addKeyed, hplace, ok_bind, addKeys_of_pushKeys hkeys hsize]
  rfl

end InstanceTree.Schema
