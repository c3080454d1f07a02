import InstanceTree.Proofs.SchemaChildren
import InstanceTree.Proofs.SchemaNumbering

namespace InstanceTree.Schema

/-- A call that adds a node, or a list with its keys, to a schema. -/
inductive Addition where
  | container (parent : Option SchemaId) (name : String)
  | leaf (parent : Option SchemaId) (name : String) (type : ValueType)
  | leafList (parent : Option SchemaId) (name : String) (type : ValueType)
      (orderedBy : OrderedBy)
  | list (parent : Option SchemaId) (name : String) (keys : List (String × ValueType))
      (orderedBy : OrderedBy)

def Addition.perform (s : Schema) : Addition → Except Fault (Schema × SchemaId)
  | .container parent name => s.addContainer parent name
  | .leaf parent name type => s.addLeaf parent name type
  | .leafList parent name type orderedBy => s.addLeafList parent name type orderedBy
  | .list parent name keys orderedBy => s.addList parent name keys orderedBy

def addAll : Schema → List Addition → Except Fault (Schema × List SchemaId)
  | s, [] => .ok (s, [])
  | s, addition :: rest => do
    let (s, id) ← addition.perform s
    let (s, ids) ← addAll s rest
    return (s, id :: ids)

variable {s s' s₁ s₂ : Schema} {p parent : Option SchemaId} {id i : SchemaId} {name : String}
  {kind : SchemaKind} {orderedBy : OrderedBy} {isKey : Bool} {keys : List (String × ValueType)}
  {ids : List SchemaId} {addition : Addition} {additions : List Addition}

/-- Every node is still there, with more children behind its own at most. -/
def Enlarges (s' s : Schema) : Prop :=
  ∀ (i : SchemaId) (n : SchemaNode), s.nodes[i]? = some n →
    ∃ more, s'.nodes[i]? = some { n with children := n.children ++ more }

theorem Enlarges.refl (s : Schema) : s.Enlarges s := by
  intro i n hn
  exact ⟨[], by simpa using hn⟩

theorem Enlarges.trans (h : s₁.Enlarges s) (h' : s₂.Enlarges s₁) : s₂.Enlarges s := by
  intro i n hn
  obtain ⟨more, hmore⟩ := h i n hn
  obtain ⟨more', hmore'⟩ := h' i _ hmore
  exact ⟨more ++ more', by simpa using hmore'⟩

theorem add_id (h : s.add parent name kind orderedBy isKey = .ok (s', id)) :
    id = s.nodes.size :=
  (add_eq_ok h).1

theorem getElem?_push_of_some {nodes : Array SchemaNode} {n : SchemaNode}
    (hn : nodes[i]? = some n) (m : SchemaNode) : (nodes.push m)[i]? = some n := by
  have hi := (Array.getElem?_eq_some_iff.1 hn).1
  rw [Array.getElem?_push_lt hi, ← Array.getElem?_eq_getElem hi, hn]

theorem add_enlarges (h : s.add parent name kind orderedBy isKey = .ok (s', id)) :
    s'.Enlarges s ∧ s'.nodes[id]? = some ⟨name, kind, parent, orderedBy, isKey, []⟩ := by
  obtain ⟨rfl, rfl, hhosts, -⟩ := add_eq_ok h
  have hnew : (s.nodes.push ⟨name, kind, parent, orderedBy, isKey, []⟩)[s.nodes.size]? =
      some ⟨name, kind, parent, orderedBy, isKey, []⟩ := Array.getElem?_push_size
  cases parent with
  | none => exact ⟨fun i n hn => ⟨[], by simpa [register] using getElem?_push_of_some hn _⟩, hnew⟩
  | some p =>
    constructor
    · intro i n hn
      simp only [register, modify, Array.getElem?_modify, getElem?_push_of_some hn]
      split
      · exact ⟨[s.nodes.size], rfl⟩
      · exact ⟨[], by simp⟩
    · obtain ⟨m, hm, -⟩ := hhosts p rfl
      have hp : p ≠ s.nodes.size := Nat.ne_of_lt (Array.getElem?_eq_some_iff.1 hm).1
      simp only [register, modify, Array.getElem?_modify, if_neg hp, hnew]

def IsLeaf (s : Schema) (key : SchemaId) (declared : String × ValueType) : Prop :=
  ∃ m, s.get key = .ok m ∧ m.name = declared.1 ∧ m.kind = .leaf declared.2

/-- A node is what an addition declares. A list begins its children with its keys, which are leaves
as declared. -/
def Gives (s : Schema) (id : SchemaId) : Addition → Prop
  | .container parent name =>
    ∃ children, s.get id = .ok ⟨name, .container, parent, .system, false, children⟩
  | .leaf parent name type =>
    ∃ children, s.get id = .ok ⟨name, .leaf type, parent, .system, false, children⟩
  | .leafList parent name type orderedBy =>
    ∃ children, s.get id = .ok ⟨name, .leafList type, parent, orderedBy, false, children⟩
  | .list parent name declared orderedBy => ∃ keys rest,
    s.get id = .ok ⟨name, .list keys, parent, orderedBy, false, keys ++ rest⟩ ∧
      List.Forall₂ s.IsLeaf keys declared

theorem Enlarges.get (h : s'.Enlarges s) {n : SchemaNode} (hn : s.get id = .ok n) :
    ∃ more, s'.get id = .ok { n with children := n.children ++ more } := by
  obtain ⟨more, hmore⟩ := h id n (get_eq_ok.1 hn)
  exact ⟨more, get_eq_ok.2 hmore⟩

theorem Enlarges.isLeaf (h : s'.Enlarges s) {key : SchemaId} {declared : String × ValueType}
    (hkey : s.IsLeaf key declared) : s'.IsLeaf key declared := by
  obtain ⟨m, hm, hname, hkind⟩ := hkey
  obtain ⟨more, hmore⟩ := h.get hm
  exact ⟨_, hmore, hname, hkind⟩

theorem Enlarges.gives (h : s'.Enlarges s) (hid : s.Gives id addition) :
    s'.Gives id addition := by
  cases addition with
  | container =>
    obtain ⟨children, hn⟩ := hid
    obtain ⟨more, hmore⟩ := h.get hn
    exact ⟨_, hmore⟩
  | leaf =>
    obtain ⟨children, hn⟩ := hid
    obtain ⟨more, hmore⟩ := h.get hn
    exact ⟨_, hmore⟩
  | leafList =>
    obtain ⟨children, hn⟩ := hid
    obtain ⟨more, hmore⟩ := h.get hn
    exact ⟨_, hmore⟩
  | list =>
    obtain ⟨keys, rest, hn, hkeys⟩ := hid
    obtain ⟨more, hmore⟩ := h.get hn
    rw [List.append_assoc] at hmore
    exact ⟨keys, rest ++ more, hmore, hkeys.imp fun _ _ => h.isLeaf⟩

theorem addKeys_declared {list : SchemaId} (h : addKeys list s keys = .ok (s', ids)) :
    s'.Enlarges s ∧ s'.listed (some list) = s.listed (some list) ++ ids ∧
      List.Forall₂ s'.IsLeaf ids keys := by
  induction keys generalizing s ids with
  | nil =>
    cases h
    exact ⟨.refl _, by simp, .nil⟩
  | cons key rest ih =>
    obtain ⟨s₁, id, rest', hadd, hrest, rfl⟩ := addKeys_cons_eq_ok h
    obtain ⟨henlarges, hnode⟩ := add_enlarges hadd
    obtain ⟨hlisted, -⟩ := add_listed hadd
    obtain ⟨hlater, hbehind, hkeys⟩ := ih hrest
    have hkey : s₁.IsLeaf id key := ⟨_, get_eq_ok.2 hnode, rfl, rfl⟩
    refine ⟨henlarges.trans hlater, ?_, .cons (hlater.isLeaf hkey) hkeys⟩
    rw [hbehind, hlisted, if_pos rfl, List.append_assoc, List.singleton_append]

theorem addKeyed_declared (h : s.addKeyed parent name keys orderedBy = .ok (s', id)) :
    s'.Enlarges s ∧ s'.Gives id (.list parent name keys orderedBy) ∧ id = s.nodes.size := by
  obtain ⟨s₁, s₂, ids, hadd, hkeys, rfl⟩ := addKeyed_eq_ok h
  obtain ⟨hbefore, hnode⟩ := add_enlarges hadd
  obtain ⟨hlater, hlisted, hleaves⟩ := addKeys_declared hkeys
  obtain ⟨more, hmore⟩ := hlater id _ hnode
  have hchildren : more = ids := by simpa [listed, hmore, hnode] using hlisted
  subst hchildren
  have hself : (s₂.modify id fun n => { n with kind := .list more }).nodes[id]? =
      some ⟨name, .list more, parent, orderedBy, false, more ++ []⟩ := by
    rw [modify, Array.getElem?_modify, if_pos rfl, hmore]
    simp
  have hother : ∀ i, i ≠ id →
      (s₂.modify id fun n => { n with kind := .list more }).nodes[i]? = s₂.nodes[i]? := by
    intro i hi
    rw [modify, Array.getElem?_modify, if_neg (Ne.symm hi)]
  refine ⟨?_, ⟨more, [], get_eq_ok.2 hself, ?_⟩, add_id hadd⟩
  · intro i n hn
    have hi : i ≠ id := by
      rw [add_id hadd]
      exact Nat.ne_of_lt (Array.getElem?_eq_some_iff.1 hn).1
    rw [hother i hi]
    exact hbefore.trans hlater i n hn
  · apply hleaves.imp
    intro key declared hkey
    obtain ⟨m, hm, hmname, hmkind⟩ := hkey
    rw [get_eq_ok] at hm
    -- a leaf is not the list, whose keys are filled in last
    have hne : key ≠ id := by
      intro heq
      subst heq
      rw [hmore] at hm
      cases hm
      cases hmkind
    exact ⟨m, get_eq_ok.2 ((hother key hne).trans hm), hmname, hmkind⟩

/-- The children of every node stand in the order of their creation. -/
def Ascending (s : Schema) : Prop :=
  ∀ p, (s.listed p).Pairwise (· < ·)

theorem Ascending.add (h : s.Ascending) (ha : s.Arranged)
    (hadd : s.add parent name kind orderedBy isKey = .ok (s', id)) : s'.Ascending := by
  intro q
  rw [(add_listed hadd).1]
  split
  · apply List.pairwise_append.2
    refine ⟨h q, List.pairwise_singleton .., ?_⟩
    intro i hi j hj
    obtain ⟨n, hn, -⟩ := Option.map_eq_some_iff.1 ((ha.mem_iff q i).1 hi)
    rw [List.mem_singleton.1 hj, add_id hadd]
    exact (Array.getElem?_eq_some_iff.1 hn).1
  · simpa using h q

theorem Ascending.addKeys {list : SchemaId} (h : s.Ascending) (ha : s.Arranged)
    (hadd : addKeys list s keys = .ok (s', ids)) : s'.Ascending :=
  (addKeys_induction (P := fun s => s.Ascending ∧ s.Arranged)
    (fun h hadd => ⟨h.1.add h.2 hadd, h.2.add hadd⟩) ⟨h, ha⟩ hadd).1

theorem Built.ascending (h : s.Built) : s.Ascending := by
  induction h with
  | empty =>
    intro p
    cases p <;> simp [listed, Schema.empty]
  | container hs hadd ih => exact ih.add hs.arranged hadd
  | leaf hs hadd ih => exact ih.add hs.arranged hadd
  | leafList hs hadd ih => exact ih.add hs.arranged hadd
  | list hs hnew ih =>
    obtain ⟨s₁, s₂, ids, hadd, hkeys, rfl⟩ := addKeyed_eq_ok hnew
    intro q
    rw [listed_setKind]
    exact (ih.add hs.arranged hadd).addKeys (hs.arranged.add hadd) hkeys q

/-- How the nodes of a schema stand to each other. -/
structure Orderly (s : Schema) : Prop where
  parent_lt : ∀ id n p, s.get id = .ok n → n.parent = some p → p < id
  /-- A parent is a container or a list, and names each of its children once. -/
  parent_hosts : ∀ id n p, s.get id = .ok n → n.parent = some p → ∃ m, s.get p = .ok m ∧
    (m.kind = .container ∨ ∃ keys, m.kind = .list keys) ∧ m.children.count id = 1
  children : ∀ p l, s.children p = .ok l → l.Pairwise (· < ·) ∧
    ∀ id, id ∈ l ↔ ∃ n, s.get id = .ok n ∧ n.parent = p
  names : ∀ p l, s.children p = .ok l → (l.map s.nameOf).Nodup
  /-- A name finds the one child that has it. -/
  child : ∀ p l name, s.children p = .ok l → ∃ found, s.child? p name = .ok found ∧
    ∀ id, found = some id ↔ id ∈ l ∧ s.nameOf id = some name
  isKey : ∀ id n, s.get id = .ok n → (n.isKey = true ↔
    ∃ p m, n.parent = some p ∧ s.get p = .ok m ∧ id ∈ m.keys)

theorem Built.exists_of_children (hs : s.Built) {l : List SchemaId} (h : s.children p = .ok l)
    (id : SchemaId) : id ∈ l ↔ ∃ n, s.get id = .ok n ∧ n.parent = p := by
  rw [children_eq_ok h, hs.arranged.mem_iff, parentOf, Option.map_eq_some_iff]
  simp only [get_eq_ok]

theorem Built.child?_spec (hs : s.Built) {l : List SchemaId} (h : s.children p = .ok l)
    (name : String) : ∃ found, s.child? p name = .ok found ∧
      ∀ id, found = some id ↔ id ∈ l ∧ s.nameOf id = some name := by
  have hchild : s.child? p name = .ok (l.find? (s.hasName name)) := by
    simp only [child?, h, ok_bind]
    rfl
  refine ⟨_, hchild, fun id => ?_⟩
  constructor
  · intro hfind
    exact ⟨List.mem_of_find?_eq_some hfind, hasName_iff.1 (List.find?_some hfind)⟩
  · intro hid
    obtain ⟨n, hn, rfl⟩ := (hs.exists_of_children h id).1 hid.1
    rw [get_eq_ok] at hn
    have hname : n.name = name := by simpa [nameOf, hn] using hid.2
    rw [← hname, hs.child?_eq hn] at hchild
    rw [← hname]
    exact (Except.ok.inj hchild).symm

theorem Built.isKey_iff (hs : s.Built) {n : SchemaNode} (hn : s.get id = .ok n) :
    n.isKey = true ↔ ∃ p m, n.parent = some p ∧ s.get p = .ok m ∧ id ∈ m.keys := by
  rw [get_eq_ok] at hn
  constructor
  · intro hkey
    obtain ⟨p, t, keys, hparent, hp, hkind, hmem⟩ := hs.keysListed id _ (trait_of_node hn) hkey
    rw [getElem?_traits, Option.map_eq_some_iff] at hp
    obtain ⟨m, hm, rfl⟩ := hp
    have hkind : m.kind = .list keys := hkind
    exact ⟨p, m, hparent, get_eq_ok.2 hm, by simpa [SchemaNode.keys, hkind] using hmem⟩
  · intro hkeyed
    obtain ⟨p, m, -, hm, hmem⟩ := hkeyed
    exact (hs.key_of_get (get_eq_ok.1 hm) hmem hn).2.2

theorem valueType?_eq_none {m : SchemaNode} :
    m.valueType? = none ↔ m.kind = .container ∨ ∃ keys, m.kind = .list keys := by
  unfold SchemaNode.valueType?
  cases m.kind <;> simp

theorem Built.orderly (hs : s.Built) : s.Orderly where
  parent_lt _ _ _ hn hp := hs.parent_lt (get_eq_ok.1 hn) hp
  parent_hosts := by
    intro id n p hn hp
    obtain ⟨m, hm, hvalue⟩ := hs.parent_hosts (get_eq_ok.1 hn) hp
    have hchildren : s.children (some p) = .ok m.children := by
      simp only [Schema.children, get_eq_ok.2 hm, ok_bind]
      rfl
    have hmem : id ∈ m.children := (hs.exists_of_children hchildren id).2 ⟨n, hn, hp⟩
    have hnodup : m.children.Nodup := by
      rw [children_eq_ok hchildren]
      exact (hs.ascending (some p)).imp Nat.ne_of_lt
    exact ⟨m, get_eq_ok.2 hm, valueType?_eq_none.1 hvalue, List.count_eq_one_of_mem hnodup hmem⟩
  children := by
    intro p l hl
    exact ⟨children_eq_ok hl ▸ hs.ascending p, hs.exists_of_children hl⟩
  names := by
    intro p l hl
    exact children_eq_ok hl ▸ hs.arranged.names p
  child _ _ name hl := hs.child?_spec hl name
  isKey _ _ hn := hs.isKey_iff hn

/-- Behind the nodes that were there stands the one that is given, and then only its keys. -/
structure Adds (s s' : Schema) (id : SchemaId) : Prop where
  enlarges : s'.Enlarges s
  id_eq : id = s.nodes.size
  grown : s.nodes.size < s'.nodes.size
  isKey : ∀ i n, s'.nodes[i]? = some n → s.nodes.size ≤ i → (n.isKey = false ↔ i = id)

theorem Adds.of_traits {t : Trait} {ts : List Trait} (h : s'.Enlarges s) (hid : id = s.nodes.size)
    (htraits : s'.traits = s.traits ++ t :: ts) (ht : t.isKey = false)
    (hts : ∀ t' ∈ ts, t'.isKey = true) : Adds s s' id := by
  have hsize := congrArg List.length htraits
  rw [List.length_append, traits_length, traits_length, List.length_cons] at hsize
  refine ⟨h, hid, by omega, ?_⟩
  intro i n hn hi
  obtain ⟨j, rfl⟩ := Nat.exists_eq_add_of_le hi
  have htrait := trait_of_node hn
  rw [htraits, ← traits_length, List.getElem?_append_right (Nat.le_add_right ..),
    Nat.add_sub_cancel_left] at htrait
  rw [hid]
  cases j with
  | zero =>
    cases htrait
    simpa using ht
  | succ j =>
    have hkey := hts _ (List.mem_of_getElem? htrait)
    simp only at hkey
    simp [hkey]

theorem add_adds (h : s.add parent name kind orderedBy false = .ok (s', id)) : Adds s s' id :=
  .of_traits (add_enlarges h).1 (add_id h) (add_spec h).2.1 rfl (by simp)

theorem Addition.size_lt (h : addition.perform s = .ok (s', id)) :
    s.nodes.size < s'.nodes.size := by
  cases addition with
  | container => exact size_push h ▸ Nat.lt_succ_self _
  | leaf => exact size_push h ▸ Nat.lt_succ_self _
  | leafList => exact size_push h ▸ Nat.lt_succ_self _
  | list => exact size_lt_of_addList h

theorem Addition.perform_spec (h : addition.perform s = .ok (s', id))
    (hsize : s'.nodes.size ≤ handleCount) :
    Adds s s' id ∧ s'.Gives id addition ∧ (s.Built → s'.Built) := by
  have hlt := Nat.lt_of_lt_of_le (Addition.size_lt h) hsize
  cases addition with
  | container parent name =>
    have h := (push_eq_add hlt).symm.trans h
    exact ⟨add_adds h, ⟨_, get_eq_ok.2 (add_enlarges h).2⟩, fun hs => .container hs h⟩
  | leaf parent name type =>
    have h := (push_eq_add hlt).symm.trans h
    exact ⟨add_adds h, ⟨_, get_eq_ok.2 (add_enlarges h).2⟩, fun hs => .leaf hs h⟩
  | leafList parent name type orderedBy =>
    have h := (push_eq_add hlt).symm.trans h
    exact ⟨add_adds h, ⟨_, get_eq_ok.2 (add_enlarges h).2⟩, fun hs => .leafList hs h⟩
  | list parent name keys orderedBy =>
    have h := addKeyed_of_addList h hsize
    obtain ⟨henlarges, hgives, hid⟩ := addKeyed_declared h
    have hadds : Adds s s' id := .of_traits henlarges hid (addKeyed_traits h) rfl <| by
      intro t ht
      obtain ⟨key, -, rfl⟩ := List.mem_map.1 ht
      rfl
    exact ⟨hadds, hgives, fun hs => .list hs h⟩

theorem size_le_of_addAll (h : addAll s additions = .ok (s', ids)) :
    s.nodes.size ≤ s'.nodes.size := by
  induction additions generalizing s ids with
  | nil =>
    cases h
    exact Nat.le_refl _
  | cons addition rest ih =>
    simp only [addAll, bind_eq_ok] at h
    obtain ⟨⟨s₁, id⟩, hadd, ⟨s₂, rest'⟩, hrest, heq⟩ := h
    cases heq
    exact Nat.le_trans (Nat.le_of_lt (Addition.size_lt hadd)) (ih hrest)

/-- A run of additions keeps what one addition keeps: what is given stays as it was declared, and
what is not given is a key. -/
theorem addAll_spec (h : addAll s additions = .ok (s', ids)) (hsize : s'.nodes.size ≤ handleCount) :
    s'.Enlarges s ∧ (s.Built → s'.Built) ∧ List.Forall₂ s'.Gives ids additions ∧
      ids.Pairwise (· < ·) ∧
      ∀ i, i ∈ ids ↔ s.nodes.size ≤ i ∧ ∃ n, s'.nodes[i]? = some n ∧ n.isKey = false := by
  induction additions generalizing s ids with
  | nil =>
    cases h
    refine ⟨.refl _, fun hs => hs, .nil, .nil, fun i => ?_⟩
    constructor
    · intro hi
      cases hi
    · intro hi
      obtain ⟨hle, n, hn, -⟩ := hi
      exact absurd (Array.getElem?_eq_some_iff.1 hn).1 (Nat.not_lt.2 hle)
  | cons addition rest ih =>
    simp only [addAll, bind_eq_ok] at h
    obtain ⟨⟨s₁, id⟩, hadd, ⟨s₂, rest'⟩, hrest, heq⟩ := h
    cases heq
    have hsize₁ := Nat.le_trans (size_le_of_addAll hrest) hsize
    obtain ⟨hadds, hgives, hbuilt⟩ := addition.perform_spec hadd hsize₁
    obtain ⟨hlater, hbuilt', hgiven, hpairwise, hrest'⟩ := ih hrest
    have hid : id = s.nodes.size := hadds.id_eq
    have hgrown : s.nodes.size < s₁.nodes.size := hadds.grown
    refine ⟨hadds.enlarges.trans hlater, fun hs => hbuilt' (hbuilt hs),
      .cons (hlater.gives hgives) hgiven, List.pairwise_cons.2 ⟨?_, hpairwise⟩, fun i => ?_⟩
    · intro i hi
      rw [hid]
      exact Nat.lt_of_lt_of_le hgrown ((hrest' i).1 hi).1
    · rw [List.mem_cons, hrest']
      rcases Nat.lt_or_ge i s₁.nodes.size with hlt | hge
      · -- the node is there before the rest, with the same mark
        obtain ⟨more, hmore⟩ := hlater i _ (Array.getElem?_eq_getElem hlt)
        have hmark := hadds.isKey i _ (Array.getElem?_eq_getElem hlt)
        have hnot : ¬ s₁.nodes.size ≤ i := Nat.not_le.2 hlt
        simp only [hmore, Option.some.injEq, exists_eq_left', hnot, false_and, or_false]
        constructor
        · intro hi
          have hle : s.nodes.size ≤ i := Nat.le_of_eq (hid.symm.trans hi.symm)
          exact ⟨hle, (hmark hle).2 hi⟩
        · intro hi
          exact (hmark hi.1).1 hi.2
      · have hne : i ≠ id := by
          intro heq
          rw [heq, hid] at hge
          exact Nat.not_le.2 hgrown hge
        have hle : s.nodes.size ≤ i := Nat.le_of_lt (Nat.lt_of_lt_of_le hgrown hge)
        simp [hne, hge, hle]

/-- Additions build a schema node by node, as long as every node has a number of its own. -/
theorem built_of_addAll (h : addAll .empty additions = .ok (s, ids))
    (hsize : s.nodes.size ≤ handleCount) : s.Built := by
  obtain ⟨-, hbuilt, -⟩ := addAll_spec h hsize
  exact hbuilt .empty

/-- However a schema is put together, as long as every node has a number of its own: parents stand
before their children and may have some, the children stand in the order of their creation under
distinct names, what an addition gives is what it declares, with the keys of a list in front, and
the rest are the keys. -/
theorem addAll_orderly (h : addAll .empty additions = .ok (s, ids))
    (hsize : s.nodes.size ≤ handleCount) :
    s.Orderly ∧ ids.Pairwise (· < ·) ∧ List.Forall₂ s.Gives ids additions ∧
      ∀ i, i ∈ ids ↔ ∃ n, s.get i = .ok n ∧ n.isKey = false := by
  obtain ⟨-, -, hgives, hpairwise, hids⟩ := addAll_spec h hsize
  refine ⟨(built_of_addAll h hsize).orderly, hpairwise, hgives, fun i => ?_⟩
  simpa [get_eq_ok, Schema.empty] using hids i

theorem addAll_orderly_of_list_with_remark :
    let additions : List Addition := [.container none "top",
      .list (some 0) "entry" [("a", .int), ("b", .string)] .system,
      .leaf (some 1) "remark" .string]
    ∃ s, addAll .empty additions = .ok (s, [0, 1, 4]) ∧ s.Orderly ∧
      s.Gives 1 (.list (some 0) "entry" [("a", .int), ("b", .string)] .system) ∧
      s.children (some 1) = .ok [2, 3, 4] := by
  intro additions
  obtain ⟨s, h, hsize, hchildren⟩ : ∃ s, addAll .empty additions = .ok (s, [0, 1, 4]) ∧
      s.nodes.size = 5 ∧ s.children (some 1) = .ok [2, 3, 4] := ⟨_, rfl, rfl, rfl⟩
  obtain ⟨horderly, -, hgives, -⟩ := addAll_orderly h (by simp [hsize, handleCount])
  obtain ⟨-, hrest⟩ := List.forall₂_cons.1 hgives
  exact ⟨s, h, horderly, (List.forall₂_cons.1 hrest).1, hchildren⟩

section Numbers

variable {tip : Nat}

/-- Of nested containers the last one stands at a place, and the first one on top. -/
structure Nested (s : Schema) (tip : Nat) : Prop where
  size : s.nodes.size = tip + 1
  inner : ∃ n, s.nodes[tip]? = some n ∧ n.kind = .container ∧ n.children = []
  outer : ∃ n, s.nodes[0]? = some n ∧ n.parent = none

theorem Nested.push_eq (h : s.Nested tip) :
    s.addContainer (some tip) "inner" =
      .ok (({ s with nodes := s.nodes.push ⟨"inner", .container, some tip, .system, false, []⟩ } :
        Schema).register (some tip) (numberAt (tip + 1)), numberAt (tip + 1)) := by
  obtain ⟨n, hn, hkind, hchildren⟩ := h.inner
  simp only [addContainer, push, enter, requireParent, child?, children, get_eq_ok.2 hn, ok_bind,
    hkind, SchemaKind.hasChildren, hchildren, h.size]
  rfl

theorem Nested.step (h : s.Nested tip) (htip : tip + 1 < handleCount) :
    ∃ s' id, s.addContainer (some tip) "inner" = .ok (s', id) ∧ s'.Nested (tip + 1) := by
  have hpush := h.push_eq
  rw [numberAt_eq htip] at hpush
  obtain ⟨henlarges, hnode⟩ := add_enlarges ((push_eq_add (h.size ▸ htip)).symm.trans hpush)
  obtain ⟨outer, houter, hparent⟩ := h.outer
  obtain ⟨more, hmore⟩ := henlarges 0 outer houter
  exact ⟨_, _, hpush, by rw [size_push hpush, h.size], ⟨_, hnode, rfl, rfl⟩, _, hmore, hparent⟩

/-- The number of the first node is given out again, and it is listed below the last one. -/
theorem Nested.wrap (h : s.Nested tip) (htip : tip + 1 = handleCount) :
    ∃ s' id, s.addContainer (some tip) "inner" = .ok (s', id) ∧
      s'.nodes.size = handleCount + 1 ∧ s'.children (some tip) = .ok [0] ∧
      ∃ n, s'.get 0 = .ok n ∧ n.parent = none := by
  have hpush := h.push_eq
  have hnumber : numberAt (tip + 1) = 0 := by rw [htip, numberAt, Nat.mod_self]
  rw [hnumber] at hpush
  obtain ⟨inner, hinner, hkind, hchildren⟩ := h.inner
  obtain ⟨outer, houter, hparent⟩ := h.outer
  have hfirst : tip ≠ 0 := by
    rintro rfl
    cases htip
  generalize hs' : Schema.register _ (some tip) 0 = s' at hpush
  have hinner' : s'.get tip = .ok { inner with children := [0] } := by
    rw [get_eq_ok, ← hs', register, modify, Array.getElem?_modify, if_pos rfl,
      getElem?_push_of_some hinner, Option.map_some, hchildren]
    rfl
  have houter' : s'.get 0 = .ok outer := by
    rw [get_eq_ok, ← hs', register, modify, Array.getElem?_modify, if_neg hfirst,
      getElem?_push_of_some houter]
  refine ⟨s', 0, hpush, by rw [size_push hpush, h.size, htip], ?_, outer, houter', hparent⟩
  simp only [children, hinner', ok_bind]
  rfl

theorem Nested.exists_addAll {k : Nat} (h : s.Nested tip) (htip : tip + k + 1 = handleCount) :
    ∃ additions s' ids, addAll s additions = .ok (s', ids) ∧ s'.nodes.size = handleCount + 1 ∧
      s'.children (some (handleCount - 1)) = .ok [0] ∧
      ∃ n, s'.get 0 = .ok n ∧ n.parent = none := by
  induction k generalizing s tip with
  | zero =>
    obtain ⟨s', id, hadd, hsize, hchildren, houter⟩ := h.wrap htip
    refine ⟨[.container (some tip) "inner"], s', [id], ?_, hsize, ?_, houter⟩
    · simp only [addAll, Addition.perform, hadd, ok_bind]
      rfl
    · rw [← htip]
      exact hchildren
  | succ k ih =>
    obtain ⟨s₁, id, hadd, h₁⟩ := h.step (by omega)
    obtain ⟨additions, s', ids, hall, hsize, hrest⟩ := ih h₁ (by omega)
    refine ⟨.container (some tip) "inner" :: additions, s', id :: ids, ?_, hsize, hrest⟩
    simp only [addAll, Addition.perform, hadd, ok_bind, hall]
    rfl

/-- With one node more than there are numbers a schema is out of order, though no addition fails:
the node on top is listed as a child of the last one but one. -/
theorem addAll_disorderly : ∃ additions s ids, addAll .empty additions = .ok (s, ids) ∧
    s.nodes.size = handleCount + 1 ∧ s.children (some (handleCount - 1)) = .ok [0] ∧
    ¬s.Orderly := by
  obtain ⟨s₁, hadd, h₁⟩ : ∃ s₁, Schema.empty.addContainer none "outer" = .ok (s₁, 0) ∧
      s₁.Nested 0 := ⟨_, rfl, rfl, ⟨_, rfl, rfl, rfl⟩, _, rfl, rfl⟩
  obtain ⟨additions, s, ids, hall, hsize, hchildren, n, hn, hparent⟩ :=
    h₁.exists_addAll (k := handleCount - 1) rfl
  refine ⟨.container none "outer" :: additions, s, 0 :: ids, ?_, hsize, hchildren, fun h => ?_⟩
  · simp only [addAll, Addition.perform, hadd, ok_bind, hall]
    rfl
  · obtain ⟨m, hm, hlisted⟩ := ((h.children _ _ hchildren).2 0).1 (List.mem_singleton_self 0)
    cases hn.symm.trans hm
    cases hparent.symm.trans hlisted

end Numbers

end InstanceTree.Schema
