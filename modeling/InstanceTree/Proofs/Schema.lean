import InstanceTree.Proofs.Yields
import InstanceTree.Schema

namespace InstanceTree.Schema

/-- Adds a node that goes by its place, however many nodes there are. -/
def add (s : Schema) (parent : Option SchemaId) (name : String) (kind : SchemaKind)
    (orderedBy : OrderedBy) (isKey : Bool) : Except Fault (Schema × SchemaId) := do
  return (← s.enter ⟨name, kind, parent, orderedBy, isKey, []⟩ s.nodes.size, s.nodes.size)

def addKeys (list : SchemaId) :
    Schema → List (String × ValueType) → Except Fault (Schema × List SchemaId)
  | s, [] => .ok (s, [])
  | s, (name, type) :: rest => do
    let (s, id) ← s.add (some list) name (.leaf type) .system true
    let (s, ids) ← addKeys list s rest
    return (s, id :: ids)

def addKeyed (s : Schema) (parent : Option SchemaId) (name : String)
    (keys : List (String × ValueType)) (orderedBy : OrderedBy) :
    Except Fault (Schema × SchemaId) := do
  let (s, list) ← s.add parent name (.list []) orderedBy false
  let (s, ids) ← addKeys list s keys
  return (s.modify list fun n => { n with kind := .list ids }, list)

/-- The schemas that can be built node by node when every node goes by its place. Additions lead to
such schemas as long as every node has a number of its own: `built_of_addAll`. -/
inductive Built : Schema → Prop
  | empty : Built .empty
  | container {s s' : Schema} {parent : Option SchemaId} {name : String} {id : SchemaId} :
      Built s → s.add parent name .container .system false = .ok (s', id) → Built s'
  | leaf {s s' : Schema} {parent : Option SchemaId} {name : String} {type : ValueType}
      {id : SchemaId} :
      Built s → s.add parent name (.leaf type) .system false = .ok (s', id) → Built s'
  | leafList {s s' : Schema} {parent : Option SchemaId} {name : String} {type : ValueType}
      {orderedBy : OrderedBy} {id : SchemaId} :
      Built s → s.add parent name (.leafList type) orderedBy false = .ok (s', id) → Built s'
  | list {s s' : Schema} {parent : Option SchemaId} {name : String}
      {keys : List (String × ValueType)} {orderedBy : OrderedBy} {id : SchemaId} :
      Built s → s.addKeyed parent name keys orderedBy = .ok (s', id) → Built s'

/-- What a node is and where it stands, which later nodes do not change. -/
structure Trait where
  kind : SchemaKind
  parent : Option SchemaId
  isKey : Bool

def traits (s : Schema) : List Trait :=
  s.nodes.toList.map fun n => ⟨n.kind, n.parent, n.isKey⟩

/-- Parents come before their children and may have some, and the keys of a list are key leaves
below it. -/
structure Grounded (ts : List Trait) : Prop where
  parent_lt : ∀ (id : SchemaId) (t : Trait) (p : SchemaId), ts[id]? = some t →
    t.parent = some p → p < id
  parent_hosts : ∀ (id : SchemaId) (t : Trait) (p : SchemaId), ts[id]? = some t →
    t.parent = some p → ∃ t', ts[p]? = some t' ∧ t'.kind.hasChildren = true
  keys_nodup : ∀ (id : SchemaId) (t : Trait) (keys : List SchemaId), ts[id]? = some t →
    t.kind = .list keys → keys.Nodup
  keys_below : ∀ (id : SchemaId) (t : Trait) (keys : List SchemaId), ts[id]? = some t →
    t.kind = .list keys → ∀ key ∈ keys, ∃ type, ts[key]? = some ⟨.leaf type, some id, true⟩

theorem grounded_nil : Grounded [] := by
  constructor <;> simp

theorem Grounded.push {ts : List Trait} (h : Grounded ts) {t : Trait}
    (hp : ∀ p, t.parent = some p → ∃ t', ts[p]? = some t' ∧ t'.kind.hasChildren = true)
    (hkind : ∀ keys, t.kind = .list keys → keys = []) : Grounded (ts ++ [t]) := by
  have hget : ∀ (id : Nat) (t' : Trait), (ts ++ [t])[id]? = some t' →
      ts[id]? = some t' ∨ (id = ts.length ∧ t' = t) := by
    intro id t' ht'
    rw [List.getElem?_append] at ht'
    split at ht'
    · exact .inl ht'
    · next hlt =>
      rw [List.getElem?_singleton] at ht'
      split at ht'
      · exact .inr ⟨by omega, (Option.some.inj ht').symm⟩
      · cases ht'
  have hkeep : ∀ (id : Nat) (t' : Trait), ts[id]? = some t' → (ts ++ [t])[id]? = some t' := by
    intro id t' ht'
    rw [List.getElem?_append_left (List.getElem?_eq_some_iff.1 ht').1, ht']
  constructor
  case parent_lt =>
    intro id t' p ht' hparent
    rcases hget id t' ht' with ht' | ⟨rfl, rfl⟩
    · exact h.parent_lt id t' p ht' hparent
    · obtain ⟨t'', ht'', -⟩ := hp p hparent
      exact (List.getElem?_eq_some_iff.1 ht'').1
  case parent_hosts =>
    intro id t' p ht' hparent
    have hhost : ∃ t'', ts[p]? = some t'' ∧ t''.kind.hasChildren = true := by
      rcases hget id t' ht' with ht' | ⟨rfl, rfl⟩
      · exact h.parent_hosts id t' p ht' hparent
      · exact hp p hparent
    obtain ⟨t'', ht'', hopen⟩ := hhost
    exact ⟨t'', hkeep p t'' ht'', hopen⟩
  case keys_nodup =>
    intro id t' keys ht' hkeys
    rcases hget id t' ht' with ht' | ⟨rfl, rfl⟩
    · exact h.keys_nodup id t' keys ht' hkeys
    · simp [hkind keys hkeys]
  case keys_below =>
    intro id t' keys ht' hkeys key hkey
    rcases hget id t' ht' with ht' | ⟨rfl, rfl⟩
    · obtain ⟨type, hk⟩ := h.keys_below id t' keys ht' hkeys key hkey
      exact ⟨type, hkeep key _ hk⟩
    · simp [hkind keys hkeys] at hkey

theorem getElem?_traits (s : Schema) (id : SchemaId) :
    s.traits[id]? = s.nodes[id]?.map fun n => ⟨n.kind, n.parent, n.isKey⟩ := by
  simp [traits]

theorem get_eq_ok {s : Schema} {id : SchemaId} {n : SchemaNode} :
    s.get id = .ok n ↔ s.nodes[id]? = some n := by
  unfold get
  split <;> simp_all

theorem trait_of_node {s : Schema} {id : SchemaId} {n : SchemaNode} (h : s.nodes[id]? = some n) :
    s.traits[id]? = some ⟨n.kind, n.parent, n.isKey⟩ := by
  rw [getElem?_traits, h]
  rfl

theorem traits_length (s : Schema) : s.traits.length = s.nodes.size := by
  simp [traits]

theorem traits_push (s : Schema) (n : SchemaNode) :
    { s with nodes := s.nodes.push n }.traits = s.traits ++ [⟨n.kind, n.parent, n.isKey⟩] := by
  simp [traits]

theorem traits_register (s : Schema) (parent : Option SchemaId) (id : SchemaId) :
    (s.register parent id).traits = s.traits := by
  cases parent with
  | none => rfl
  | some p =>
    apply List.ext_getElem?
    intro i
    simp only [getElem?_traits, register, modify, Array.getElem?_modify]
    split
    · cases s.nodes[i]? <;> rfl
    · rfl

theorem hosts_of_requireParent {s : Schema} {parent : Option SchemaId} {u : Unit}
    (h : s.requireParent parent = .ok u) :
    ∀ p, parent = some p → ∃ n, s.nodes[p]? = some n ∧ n.kind.hasChildren = true := by
  rintro p rfl
  simp only [requireParent, bind_eq_ok] at h
  obtain ⟨n, hn, hhost⟩ := h
  refine ⟨n, get_eq_ok.1 hn, ?_⟩
  cases hopen : n.kind.hasChildren with
  | true => rfl
  | false =>
    rw [hopen] at hhost
    cases hhost

section Add

variable {s s' : Schema} {parent : Option SchemaId} {name : String} {kind : SchemaKind}
  {orderedBy : OrderedBy} {isKey : Bool} {id : SchemaId}

/-- All that an entry does: it puts a node behind the others and registers it below its parent,
which may have children and none of that name. -/
theorem enter_eq_ok {node : SchemaNode} (h : s.enter node id = .ok s') :
    s' = ({ s with nodes := s.nodes.push node } : Schema).register node.parent id ∧
      (∀ p, node.parent = some p → ∃ n, s.nodes[p]? = some n ∧ n.kind.hasChildren = true) ∧
      s.child? node.parent node.name = .ok none := by
  simp only [enter, bind_eq_ok] at h
  obtain ⟨_, hparent, found, hfound, h⟩ := h
  split at h
  · cases h
  · next hnone =>
    cases h
    rw [Option.not_isSome_iff_eq_none] at hnone
    subst hnone
    exact ⟨rfl, hosts_of_requireParent hparent, hfound⟩

theorem add_eq_ok (h : s.add parent name kind orderedBy isKey = .ok (s', id)) :
    id = s.nodes.size ∧
      s' = ({ s with nodes := s.nodes.push ⟨name, kind, parent, orderedBy, isKey, []⟩ } :
        Schema).register parent s.nodes.size ∧
      (∀ p, parent = some p → ∃ n, s.nodes[p]? = some n ∧ n.kind.hasChildren = true) ∧
      s.child? parent name = .ok none := by
  simp only [add, bind_eq_ok] at h
  obtain ⟨s₁, henter, heq⟩ := h
  cases heq
  exact ⟨rfl, enter_eq_ok henter⟩

theorem add_spec (h : s.add parent name kind orderedBy isKey = .ok (s', id)) :
    id = s.traits.length ∧ s'.traits = s.traits ++ [⟨kind, parent, isKey⟩] ∧
      ∀ p, parent = some p → ∃ t, s.traits[p]? = some t ∧ t.kind.hasChildren = true := by
  obtain ⟨rfl, rfl, hhosts, -⟩ := add_eq_ok h
  refine ⟨(traits_length s).symm, by rw [traits_register, traits_push], fun p hp => ?_⟩
  obtain ⟨n, hn, hopen⟩ := hhosts p hp
  exact ⟨_, trait_of_node hn, hopen⟩

theorem Grounded.add (h : Grounded s.traits)
    (hadd : s.add parent name kind orderedBy isKey = .ok (s', id))
    (hkind : ∀ keys, kind = .list keys → keys = []) : Grounded s'.traits := by
  obtain ⟨-, htraits, hp⟩ := add_spec hadd
  rw [htraits]
  exact h.push hp hkind

section AddKeys

variable {list : SchemaId} {keys : List (String × ValueType)} {ids : List SchemaId}

theorem addKeys_cons_eq_ok {key : String × ValueType}
    (h : addKeys list s (key :: keys) = .ok (s', ids)) : ∃ s₁ id rest,
      s.add (some list) key.1 (.leaf key.2) .system true = .ok (s₁, id) ∧
        addKeys list s₁ keys = .ok (s', rest) ∧ ids = id :: rest := by
  simp only [addKeys, bind_eq_ok] at h
  obtain ⟨⟨s₁, id⟩, hadd, ⟨s₂, rest⟩, hrest, heq⟩ := h
  cases heq
  exact ⟨s₁, id, rest, hadd, hrest, rfl⟩

theorem addKeys_induction {P : Schema → Prop}
    (hstep : ∀ {s s' id name type}, P s →
      s.add (some list) name (.leaf type) .system true = .ok (s', id) → P s')
    (h : P s) (hadd : addKeys list s keys = .ok (s', ids)) : P s' := by
  induction keys generalizing s ids with
  | nil =>
    cases hadd
    exact h
  | cons key rest ih =>
    obtain ⟨s₁, id, rest', hadd, hrest, -⟩ := addKeys_cons_eq_ok hadd
    exact ih (hstep h hadd) hrest

theorem addKeyed_eq_ok (h : s.addKeyed parent name keys orderedBy = .ok (s', id)) :
    ∃ s₁ s₂ ids, s.add parent name (.list []) orderedBy false = .ok (s₁, id) ∧
      addKeys id s₁ keys = .ok (s₂, ids) ∧
        s' = s₂.modify id fun n => { n with kind := .list ids } := by
  simp only [addKeyed, bind_eq_ok] at h
  obtain ⟨⟨s₁, list⟩, hadd, ⟨s₂, ids⟩, hkeys, heq⟩ := h
  cases heq
  exact ⟨s₁, s₂, ids, hadd, hkeys, rfl⟩

theorem addKeys_spec (h : addKeys list s keys = .ok (s', ids)) :
    s'.traits = s.traits ++ keys.map (fun key => ⟨.leaf key.2, some list, true⟩) ∧
      ids = List.range' s.traits.length keys.length := by
  induction keys generalizing s ids with
  | nil =>
    cases h
    simp
  | cons key rest ih =>
    obtain ⟨s₁, id, rest', hadd, hrest, rfl⟩ := addKeys_cons_eq_ok h
    obtain ⟨rfl, htraits, -⟩ := add_spec hadd
    obtain ⟨hs', hids⟩ := ih hrest
    rw [hs', hids, htraits]
    simp [List.range'_succ]

theorem Grounded.addKeys (h : Grounded s.traits) (hadd : addKeys list s keys = .ok (s', ids)) :
    Grounded s'.traits :=
  addKeys_induction (P := fun s => Grounded s.traits) (fun h hadd => h.add hadd nofun) h hadd

end AddKeys

end Add

theorem Grounded.setKeys {s : Schema} {list : SchemaId} {parent : Option SchemaId}
    {ids : List SchemaId} (h : Grounded s.traits)
    (hlist : s.traits[list]? = some ⟨.list [], parent, false⟩) (hnd : ids.Nodup)
    (hids : ∀ key ∈ ids, ∃ type, s.traits[key]? = some ⟨.leaf type, some list, true⟩) :
    Grounded (s.modify list fun n => { n with kind := .list ids }).traits := by
  obtain ⟨ts, hts⟩ : ∃ ts, ts = (s.modify list fun n => { n with kind := .list ids }).traits :=
    ⟨_, rfl⟩
  have hother : ∀ id, id ≠ list → ts[id]? = s.traits[id]? := by
    intro id hne
    rw [hts, getElem?_traits, modify, Array.getElem?_modify, if_neg (Ne.symm hne), getElem?_traits]
  have hself : ts[list]? = some ⟨.list ids, parent, false⟩ := by
    rw [getElem?_traits] at hlist
    rw [hts, getElem?_traits, modify, Array.getElem?_modify, if_pos rfl]
    cases hn : s.nodes[list]? with
    | none => simp [hn] at hlist
    | some n => simp_all
  have hkey : ∀ (id key : SchemaId) (type : ValueType),
      s.traits[key]? = some ⟨.leaf type, some id, true⟩ →
        ts[key]? = some ⟨.leaf type, some id, true⟩ := by
    intro id key type hk
    have hne : key ≠ list := by
      intro heq
      subst heq
      simp [hk] at hlist
    rw [hother key hne, hk]
  have hparent : ∀ (id : SchemaId) (t : Trait), ts[id]? = some t →
      ∃ t', s.traits[id]? = some t' ∧ t'.parent = t.parent := by
    intro id t ht
    by_cases hid : id = list
    · subst hid
      cases hself.symm.trans ht
      exact ⟨_, hlist, rfl⟩
    · exact ⟨t, hother id hid ▸ ht, rfl⟩
  rw [← hts]
  constructor
  case parent_lt =>
    intro id t p ht hp
    obtain ⟨t', ht', heq⟩ := hparent id t ht
    exact h.parent_lt id t' p ht' (heq.trans hp)
  case parent_hosts =>
    intro id t p ht hp
    obtain ⟨t', ht', heq⟩ := hparent id t ht
    obtain ⟨t'', ht'', hopen⟩ := h.parent_hosts id t' p ht' (heq.trans hp)
    by_cases hid : p = list
    · subst hid
      exact ⟨_, hself, rfl⟩
    · exact ⟨t'', (hother p hid).trans ht'', hopen⟩
  case keys_nodup =>
    intro id t keys ht hkeys
    by_cases hid : id = list
    · subst hid
      cases hself.symm.trans ht
      cases hkeys
      exact hnd
    · exact h.keys_nodup id t keys (hother id hid ▸ ht) hkeys
  case keys_below =>
    intro id t keys ht hkeys key hmem
    by_cases hid : id = list
    · subst hid
      cases hself.symm.trans ht
      cases hkeys
      obtain ⟨type, hk⟩ := hids key hmem
      exact ⟨type, hkey _ _ _ hk⟩
    · obtain ⟨type, hk⟩ := h.keys_below id t keys (hother id hid ▸ ht) hkeys key hmem
      exact ⟨type, hkey _ _ _ hk⟩

theorem Built.grounded {s : Schema} (h : s.Built) : Grounded s.traits := by
  induction h with
  | empty => exact grounded_nil
  | container _ hadd ih => exact ih.add hadd nofun
  | leaf _ hadd ih => exact ih.add hadd nofun
  | leafList _ hadd ih => exact ih.add hadd nofun
  | @list s s' parent name keys orderedBy id _ hnew ih =>
    obtain ⟨s₁, s₂, ids, hadd, hkeys, rfl⟩ := addKeyed_eq_ok hnew
    have h₁ := ih.add hadd fun _ heq => (SchemaKind.list.inj heq).symm
    have h₂ := h₁.addKeys hkeys
    obtain ⟨rfl, htraits, -⟩ := add_spec hadd
    obtain ⟨hs₂, hids⟩ := addKeys_spec hkeys
    have hlist : s₂.traits[s.traits.length]? = some ⟨.list [], parent, false⟩ := by
      simp [hs₂, htraits]
    exact h₂.setKeys hlist (hids ▸ List.nodup_range') fun key hkey => by
      rw [hids, List.mem_range'_1] at hkey
      simp only [htraits, List.length_append, List.length_singleton] at hkey
      obtain ⟨j, rfl⟩ := Nat.exists_eq_add_of_le hkey.1
      have hj : j < keys.length := by omega
      refine ⟨keys[j].2, ?_⟩
      rw [hs₂, htraits, List.getElem?_append_right (by simp)]
      simp [hj]

section Nodes

variable {s : Schema} {id : SchemaId} {n : SchemaNode}

theorem Built.parent_lt (hs : s.Built) (h : s.nodes[id]? = some n) {p : SchemaId}
    (hp : n.parent = some p) : p < id :=
  hs.grounded.parent_lt id _ p (trait_of_node h) hp

theorem Built.parent_hosts (hs : s.Built) (h : s.nodes[id]? = some n) {p : SchemaId}
    (hp : n.parent = some p) : ∃ m, s.nodes[p]? = some m ∧ m.valueType? = none := by
  obtain ⟨t, ht, hopen⟩ := hs.grounded.parent_hosts id _ p (trait_of_node h) hp
  rw [getElem?_traits, Option.map_eq_some_iff] at ht
  obtain ⟨m, hm, rfl⟩ := ht
  refine ⟨m, hm, ?_⟩
  unfold SchemaNode.valueType?
  split <;> simp_all [SchemaKind.hasChildren]

theorem Built.keys_nodup (hs : s.Built) (h : s.nodes[id]? = some n) : n.keys.Nodup := by
  unfold SchemaNode.keys
  split
  · next keys hkind => exact hs.grounded.keys_nodup id _ keys (trait_of_node h) hkind
  · exact List.nodup_nil

theorem Built.key (hs : s.Built) (h : s.nodes[id]? = some n) {key : SchemaId}
    (hkey : key ∈ n.keys) : ∃ m type, s.nodes[key]? = some m ∧ m.kind = .leaf type ∧
      m.parent = some id ∧ m.isKey = true := by
  unfold SchemaNode.keys at hkey
  split at hkey
  · next keys hkind =>
    obtain ⟨type, htype⟩ := hs.grounded.keys_below id _ keys (trait_of_node h) hkind key hkey
    rw [getElem?_traits, Option.map_eq_some_iff] at htype
    obtain ⟨m, hm, htype⟩ := htype
    obtain ⟨hkind, hparent, hisKey⟩ := Trait.mk.inj htype
    exact ⟨m, type, hm, hkind, hparent, hisKey⟩
  · cases hkey

theorem Built.key_of_get (hs : s.Built) (h : s.nodes[id]? = some n) {key : SchemaId}
    (hkey : key ∈ n.keys) {m : SchemaNode} (hm : s.nodes[key]? = some m) :
    (∃ type, m.kind = .leaf type) ∧ m.parent = some id ∧ m.isKey = true := by
  obtain ⟨m', type, hm', htype, hparent, hisKey⟩ := hs.key h hkey
  cases hm.symm.trans hm'
  exact ⟨⟨type, htype⟩, hparent, hisKey⟩

def NoKey (s : Schema) (t : SchemaId) : Prop :=
  ∀ (id : SchemaId) (n : SchemaNode), s.nodes[id]? = some n → t ∉ n.keys

theorem Built.noKey_of_isKey (hs : s.Built) (h : s.nodes[id]? = some n)
    (hkey : n.isKey = false) : s.NoKey id := by
  intro id' n' h' hmem
  cases hkey.symm.trans (hs.key_of_get h' hmem h).2.2

theorem Built.noKey_of_kind (hs : s.Built) (h : s.nodes[id]? = some n)
    (hkind : ∀ type, n.kind ≠ .leaf type) : s.NoKey id := by
  intro id' n' h' hmem
  obtain ⟨type, hleaf⟩ := (hs.key_of_get h' hmem h).1
  exact hkind type hleaf

end Nodes

end InstanceTree.Schema
