import InstanceTree.Proofs.Schema
import Mathlib.Data.List.Nodup

namespace InstanceTree.Schema

variable {s s' : Schema} {p q parent : Option SchemaId} {id c : SchemaId} {n : SchemaNode}
  {name : String}

def nameOf (s : Schema) (id : SchemaId) : Option String :=
  s.nodes[id]?.map (·.name)

def parentOf (s : Schema) (id : SchemaId) : Option (Option SchemaId) :=
  s.nodes[id]?.map (·.parent)

def listed (s : Schema) : Option SchemaId → List SchemaId
  | none => s.roots
  | some p => (s.nodes[p]?.map (·.children)).getD []

/-- Below every node stand exactly the nodes that name it as their parent, under distinct
names. -/
structure Arranged (s : Schema) : Prop where
  mem_iff : ∀ p id, id ∈ s.listed p ↔ s.parentOf id = some p
  names : ∀ p, ((s.listed p).map s.nameOf).Nodup

theorem nameOf_modify {f : SchemaNode → SchemaNode} (hf : ∀ n, (f n).name = n.name) :
    (s.modify c f).nameOf id = s.nameOf id := by
  simp only [nameOf, modify, Array.getElem?_modify]
  split
  · cases s.nodes[id]? <;> simp [hf]
  · rfl

theorem parentOf_modify {f : SchemaNode → SchemaNode} (hf : ∀ n, (f n).parent = n.parent) :
    (s.modify c f).parentOf id = s.parentOf id := by
  simp only [parentOf, modify, Array.getElem?_modify]
  split
  · cases s.nodes[id]? <;> simp [hf]
  · rfl

theorem nameOf_register : (s.register parent c).nameOf = s.nameOf := by
  funext id
  cases parent with
  | none => rfl
  | some p => exact nameOf_modify fun _ => rfl

theorem parentOf_register : (s.register parent c).parentOf = s.parentOf := by
  funext id
  cases parent with
  | none => rfl
  | some p => exact parentOf_modify fun _ => rfl

theorem listed_register (hp : ∀ p, parent = some p → (s.nodes[p]?).isSome) :
    (s.register parent c).listed q = s.listed q ++ if q = parent then [c] else [] := by
  cases parent with
  | none => cases q <;> simp [register, listed]
  | some p =>
    cases q with
    | none => simp [register, listed, modify]
    | some q =>
      simp only [register, listed, modify, Array.getElem?_modify, Option.some.injEq]
      by_cases hq : p = q
      · subst hq
        obtain ⟨m, hm⟩ := Option.isSome_iff_exists.1 (hp p rfl)
        simp [hm]
      · simp [hq, Ne.symm hq]

theorem children_eq_ok {cs : List SchemaId} (h : s.children p = .ok cs) : cs = s.listed p := by
  cases p with
  | none => exact (Except.ok.inj h).symm
  | some p =>
    simp only [children, bind_eq_ok] at h
    obtain ⟨m, hm, heq⟩ := h
    cases heq
    simp [listed, get_eq_ok.1 hm]

theorem hasName_iff : s.hasName name id = true ↔ s.nameOf id = some name := by
  unfold hasName nameOf
  cases s.nodes[id]? <;> simp

theorem not_mem_of_child?_eq_none (h : s.child? p name = .ok none) :
    some name ∉ (s.listed p).map s.nameOf := by
  intro hmem
  obtain ⟨c, hc, hname⟩ := List.mem_map.1 hmem
  simp only [child?, bind_eq_ok] at h
  obtain ⟨cs, hcs, hfind⟩ := h
  cases children_eq_ok hcs
  exact List.find?_eq_none.1 (Except.ok.inj hfind) c hc (hasName_iff.2 hname)

theorem listed_push (hn : n.children = []) :
    ({ s with nodes := s.nodes.push n } : Schema).listed q = s.listed q := by
  cases q with
  | none => rfl
  | some q =>
    simp only [listed, Array.getElem?_push]
    split
    · next hq => simp [hq, hn]
    · rfl

theorem add_listed {kind : SchemaKind} {orderedBy : OrderedBy} {isKey : Bool}
    (h : s.add parent name kind orderedBy isKey = .ok (s', id)) :
    (∀ q, s'.listed q = s.listed q ++ if q = parent then [id] else []) ∧
    (∀ i, s'.nameOf i = if i = id then some name else s.nameOf i) ∧
    (∀ i, s'.parentOf i = if i = id then some parent else s.parentOf i) ∧
    s.parentOf id = none ∧ some name ∉ (s.listed parent).map s.nameOf := by
  obtain ⟨rfl, rfl, hhosts, hnone⟩ := add_eq_ok h
  refine ⟨?_, ?_, ?_, by simp [parentOf], not_mem_of_child?_eq_none hnone⟩
  · intro q
    rw [listed_register, listed_push rfl]
    intro p hp
    obtain ⟨m, hm, -⟩ := hhosts p hp
    rw [Array.getElem?_push]
    split
    · rfl
    · simp [hm]
  · intro i
    rw [nameOf_register, nameOf, Array.getElem?_push]
    split <;> rfl
  · intro i
    rw [parentOf_register, parentOf, Array.getElem?_push]
    split <;> rfl

theorem Arranged.add (h : s.Arranged) {kind : SchemaKind} {orderedBy : OrderedBy} {isKey : Bool}
    (hadd : s.add parent name kind orderedBy isKey = .ok (s', id)) : s'.Arranged := by
  obtain ⟨hlisted, hname, hparent, hnew, hfresh⟩ := add_listed hadd
  have hold : ∀ q, ∀ i ∈ s.listed q, i ≠ id := by
    intro q i hi heq
    subst heq
    cases hnew.symm.trans ((h.mem_iff q i).1 hi)
  constructor
  · intro q i
    rw [hlisted, hparent, List.mem_append, h.mem_iff]
    by_cases hi : i = id
    · subst hi
      rw [if_pos rfl, hnew]
      by_cases hq : parent = q
      · simp [hq]
      · simp [hq, Ne.symm hq]
    · rw [if_neg hi, or_iff_left]
      split <;> simp [hi]
  · intro q
    rw [hlisted, List.map_append]
    have hmap : (s.listed q).map s'.nameOf = (s.listed q).map s.nameOf :=
      List.map_congr_left fun i hi => by rw [hname, if_neg (hold q i hi)]
    rw [hmap]
    split
    · next hq =>
      subst hq
      refine List.nodup_append.2 ⟨h.names q, by simp, ?_⟩
      intro a ha b hb heq
      simp only [List.map_cons, List.map_nil, List.mem_singleton, hname, if_pos] at hb
      rw [heq, hb] at ha
      exact hfresh ha
    · simpa using h.names q

theorem Arranged.addKeys {list : SchemaId} {keys : List (String × ValueType)}
    {ids : List SchemaId} (h : s.Arranged) (hadd : addKeys list s keys = .ok (s', ids)) :
    s'.Arranged :=
  addKeys_induction (fun h hadd => h.add hadd) h hadd

theorem listed_setKind (kind : SchemaKind) (q : Option SchemaId) :
    (s.modify c fun n => { n with kind := kind }).listed q = s.listed q := by
  cases q with
  | none => rfl
  | some q =>
    simp only [listed, modify, Array.getElem?_modify]
    split
    · cases s.nodes[q]? <;> rfl
    · rfl

theorem Arranged.setKind (h : s.Arranged) (kind : SchemaKind) :
    (s.modify c fun n => { n with kind := kind }).Arranged := by
  constructor
  · intro q i
    rw [listed_setKind, parentOf_modify (f := fun n => { n with kind := kind }) fun _ => rfl,
      h.mem_iff]
  · intro q
    have hmap : (s.listed q).map (s.modify c fun n => { n with kind := kind }).nameOf =
        (s.listed q).map s.nameOf := List.map_congr_left fun i _ => nameOf_modify fun _ => rfl
    rw [listed_setKind, hmap]
    exact h.names q

theorem Built.arranged (h : s.Built) : s.Arranged := by
  induction h with
  | empty =>
    constructor
    · intro p id
      cases p <;> simp [listed, parentOf, Schema.empty]
    · intro p
      cases p <;> simp [listed, Schema.empty]
  | container _ hadd ih => exact ih.add hadd
  | leaf _ hadd ih => exact ih.add hadd
  | leafList _ hadd ih => exact ih.add hadd
  | list _ hnew ih =>
    obtain ⟨s₁, s₂, ids, hadd, hkeys, rfl⟩ := addKeyed_eq_ok hnew
    exact ((ih.add hadd).addKeys hkeys).setKind _

theorem Built.child?_eq_some (hs : s.Built) (h : s.child? p name = .ok (some c)) :
    ∃ n, s.nodes[c]? = some n ∧ n.parent = p ∧ n.name = name := by
  simp only [child?, bind_eq_ok] at h
  obtain ⟨cs, hcs, hfind⟩ := h
  cases children_eq_ok hcs
  have hfind := Except.ok.inj hfind
  have hmem := (hs.arranged.mem_iff p c).1 (List.mem_of_find?_eq_some hfind)
  have hname := hasName_iff.1 (List.find?_some hfind)
  simp only [parentOf, nameOf, Option.map_eq_some_iff] at hmem hname
  obtain ⟨n, hn, hparent⟩ := hmem
  obtain ⟨m, hm, hname⟩ := hname
  cases hn.symm.trans hm
  exact ⟨n, hn, hparent, hname⟩

theorem children_ok (hp : ∀ i, p = some i → (s.nodes[i]?).isSome) :
    s.children p = .ok (s.listed p) := by
  cases p with
  | none => rfl
  | some i =>
    obtain ⟨m, hm⟩ := Option.isSome_iff_exists.1 (hp i rfl)
    simp only [children, get_eq_ok.2 hm, ok_bind, listed, hm]
    rfl

theorem isSome_of_node (hn : s.nodes[id]? = some n) : ∀ i, some id = some i →
    (s.nodes[i]?).isSome := by
  intro i hi
  cases hi
  simp [hn]

theorem child?_ok (hp : ∀ i, p = some i → (s.nodes[i]?).isSome) (name : String) :
    s.child? p name = .ok ((s.listed p).find? (s.hasName name)) := by
  simp only [child?, children_ok hp, ok_bind]
  rfl

theorem Built.isSome_of_parent (hs : s.Built) (hn : s.nodes[id]? = some n) :
    ∀ i, n.parent = some i → (s.nodes[i]?).isSome := by
  intro i hi
  obtain ⟨m, hm, -⟩ := hs.parent_hosts hn hi
  simp [hm]

theorem Built.child?_eq (hs : s.Built) (hn : s.nodes[id]? = some n) :
    s.child? n.parent n.name = .ok (some id) := by
  rw [child?_ok (hs.isSome_of_parent hn)]
  have hmem : id ∈ s.listed n.parent := (hs.arranged.mem_iff _ id).2 (by simp [parentOf, hn])
  have hname : s.hasName n.name id = true := hasName_iff.2 (by simp [nameOf, hn])
  obtain ⟨c, hc⟩ := Option.isSome_iff_exists.1 (List.find?_isSome.2 ⟨id, hmem, hname⟩)
  have hcname := hasName_iff.1 (List.find?_some hc)
  have hcmem := List.mem_of_find?_eq_some hc
  rw [hasName_iff] at hname
  have hsame : c = id := List.inj_on_of_nodup_map (hs.arranged.names n.parent) hcmem hmem
    (hcname.trans hname.symm)
  rw [hc, hsame]

def named (s : Schema) (p : Option SchemaId) (name : String) : Option SchemaId :=
  (s.listed p).find? (s.hasName name)

theorem Built.named_eq_some (hs : s.Built) (h : s.named p name = some c)
    (hp : ∀ i, p = some i → (s.nodes[i]?).isSome) :
    ∃ n, s.nodes[c]? = some n ∧ n.parent = p ∧ n.name = name :=
  hs.child?_eq_some ((child?_ok hp name).trans (congrArg Except.ok h))

theorem Built.named_eq (hs : s.Built) (hn : s.nodes[id]? = some n) :
    s.named n.parent n.name = some id := by
  have hchild := child?_ok (hs.isSome_of_parent hn) n.name
  exact Except.ok.inj (hchild.symm.trans (hs.child?_eq hn))

theorem Built.name_inj (hs : s.Built) (hn : s.nodes[id]? = some n) {m : SchemaNode}
    (hm : s.nodes[c]? = some m) (hparent : n.parent = m.parent) (hname : n.name = m.name) :
    id = c := by
  have hid := hs.child?_eq hn
  rw [hparent, hname, hs.child?_eq hm] at hid
  exact (Option.some.inj (Except.ok.inj hid)).symm

/-- Every key leaf is among the keys of the list that it stands below. -/
def KeysListed (ts : List Trait) : Prop :=
  ∀ (id : SchemaId) (t : Trait), ts[id]? = some t → t.isKey = true →
    ∃ p t' keys, t.parent = some p ∧ ts[p]? = some t' ∧ t'.kind = .list keys ∧ id ∈ keys

theorem KeysListed.push {ts : List Trait} (h : KeysListed ts) {t : Trait}
    (ht : t.isKey = false) : KeysListed (ts ++ [t]) := by
  intro id t' ht' hkey
  have hlt : id < ts.length := by
    have hle := (List.getElem?_eq_some_iff.1 ht').1
    rw [List.length_append, List.length_singleton] at hle
    rcases Nat.lt_or_eq_of_le (Nat.lt_succ_iff.1 hle) with hlt | heq
    · exact hlt
    · rw [heq, List.getElem?_concat_length] at ht'
      cases ht'
      cases ht.symm.trans hkey
  rw [List.getElem?_append_left hlt] at ht'
  obtain ⟨p, t'', keys, hparent, hp, hkind, hmem⟩ := h id t' ht' hkey
  refine ⟨p, t'', keys, hparent, ?_, hkind, hmem⟩
  rw [List.getElem?_append_left (List.getElem?_eq_some_iff.1 hp).1, hp]

theorem addKeyed_traits {keys : List (String × ValueType)} {orderedBy : OrderedBy}
    (h : s.addKeyed parent name keys orderedBy = .ok (s', id)) :
    s'.traits = s.traits ++
      ⟨.list (List.range' (s.traits.length + 1) keys.length), parent, false⟩ ::
        keys.map fun key => ⟨.leaf key.2, some s.traits.length, true⟩ := by
  obtain ⟨s₁, s₂, ids, hadd, hkeys, rfl⟩ := addKeyed_eq_ok h
  obtain ⟨rfl, htraits, -⟩ := add_spec hadd
  obtain ⟨hs₂, hids⟩ := addKeys_spec hkeys
  rw [htraits, List.append_assoc] at hs₂
  rw [htraits, List.length_append, List.length_singleton] at hids
  apply List.ext_getElem?
  intro i
  have hi := congrArg (·[i]?) hs₂
  simp only [getElem?_traits] at hi
  rw [getElem?_traits, modify, Array.getElem?_modify]
  by_cases heq : s.traits.length = i
  · subst heq
    rw [if_pos rfl]
    cases hnode : s₂.nodes[s.traits.length]? with
    | none => simp [hnode] at hi
    | some m => simp_all
  · rw [if_neg heq, hi]
    rcases Nat.lt_or_ge i s.traits.length with hlt | hge
    · rw [List.getElem?_append_left hlt, List.getElem?_append_left hlt]
    · rw [List.getElem?_append_right hge, List.getElem?_append_right hge]
      obtain ⟨j, hj⟩ : ∃ j, i - s.traits.length = j + 1 := ⟨i - s.traits.length - 1, by omega⟩
      simp [hj]

theorem Built.keysListed (h : s.Built) : KeysListed s.traits := by
  induction h with
  | empty => simp [KeysListed, traits, Schema.empty]
  | container _ hadd ih =>
    rw [(add_spec hadd).2.1]
    exact ih.push rfl
  | leaf _ hadd ih =>
    rw [(add_spec hadd).2.1]
    exact ih.push rfl
  | leafList _ hadd ih =>
    rw [(add_spec hadd).2.1]
    exact ih.push rfl
  | @list s s' parent name keys orderedBy id _ hadd ih =>
    rw [addKeyed_traits hadd]
    intro i t ht hkey
    rcases Nat.lt_or_ge i s.traits.length with hlt | hge
    · rw [List.getElem?_append_left hlt] at ht
      obtain ⟨p, t', keys', hparent, hp, hkind, hmem⟩ := ih i t ht hkey
      refine ⟨p, t', keys', hparent, ?_, hkind, hmem⟩
      rw [List.getElem?_append_left (List.getElem?_eq_some_iff.1 hp).1, hp]
    · obtain ⟨j, rfl⟩ := Nat.exists_eq_add_of_le hge
      rw [List.getElem?_append_right hge, Nat.add_sub_cancel_left] at ht
      cases j with
      | zero =>
        cases ht
        cases hkey
      | succ j =>
        rw [List.getElem?_cons_succ, List.getElem?_map, Option.map_eq_some_iff] at ht
        obtain ⟨key, hj, rfl⟩ := ht
        have hlt := (List.getElem?_eq_some_iff.1 hj).1
        refine ⟨s.traits.length, ⟨.list (List.range' (s.traits.length + 1) keys.length), parent,
          false⟩, _, rfl, by simp, rfl, ?_⟩
        rw [List.mem_range'_1]
        omega

theorem Built.leaf_of_isKey (hs : s.Built) (hn : s.nodes[id]? = some n) (hkey : n.isKey = true) :
    (∃ type, n.kind = .leaf type) ∧ n.parent.isSome := by
  obtain ⟨p, t, keys, -, hp, hkind, hmem⟩ := hs.keysListed id _ (trait_of_node hn) hkey
  rw [getElem?_traits, Option.map_eq_some_iff] at hp
  obtain ⟨m, hm, rfl⟩ := hp
  have hkeys : m.keys = keys := by
    simp only at hkind
    rw [SchemaNode.keys, hkind]
  obtain ⟨hleaf, hparent, -⟩ := hs.key_of_get hm (hkeys ▸ hmem) hn
  exact ⟨hleaf, by simp [hparent]⟩

theorem Built.noKey_iff (hs : s.Built) (hn : s.nodes[id]? = some n) :
    s.NoKey id ↔ n.isKey = false := by
  refine ⟨fun hno => ?_, hs.noKey_of_isKey hn⟩
  rw [Bool.eq_false_iff]
  intro hkey
  obtain ⟨p, t, keys, -, hp, hkind, hmem⟩ := hs.keysListed id _ (trait_of_node hn) hkey
  rw [getElem?_traits, Option.map_eq_some_iff] at hp
  obtain ⟨m, hm, rfl⟩ := hp
  have hkeys : m.keys = keys := by
    simp only at hkind
    rw [SchemaNode.keys, hkind]
  exact hno p m hm (hkeys ▸ hmem)

end InstanceTree.Schema
