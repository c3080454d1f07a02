import InstanceTree.Proofs.Forest.Contiguity
import InstanceTree.Proofs.Forest.Table
import InstanceTree.Proofs.Schema
import Mathlib.Data.List.Perm.Subperm

namespace InstanceTree

/-- Whether the instances of a schema node may hold some content. -/
def SchemaNode.Accepts (n : SchemaNode) : Content → Prop
  | .term v => n.valueType? = some v.type
  | .inner _ => n.valueType? = none

theorem SchemaNode.accepts_mapChildren {n : SchemaNode} {g : Children → Children} {e : Element}
    (h : n.Accepts e.content) : n.Accepts (e.mapChildren g).content := by
  unfold Element.mapChildren
  split
  · exact h
  · next c hc =>
    rw [hc] at h
    exact h

theorem SchemaNode.accepts_touchChain {n : SchemaNode} {p : Option NodeId}
    {g : Children → Children} {i : NodeId} {e : Element} (h : n.Accepts e.content) :
    n.Accepts (Forest.touchChain p g i e).content := by
  unfold Forest.touchChain
  split
  · exact accepts_mapChildren h
  · exact h

def runOf (g : List NodeId) : Option Run :=
  g.head?.bind fun a => g.getLast?.map fun b => ⟨a, b⟩

theorem runOf_map_first (g : List NodeId) : (runOf g).map (·.first) = g.head? := by
  cases g with
  | nil => rfl
  | cons n g => simp [runOf, List.getLast?_cons]

theorem runOf_map_last (g : List NodeId) : (runOf g).map (·.last) = g.getLast? := by
  cases g with
  | nil => rfl
  | cons n g => simp [runOf, List.getLast?_cons]

theorem runOf_insert (n : NodeId) (xs ys : List NodeId) :
    runOf (xs ++ n :: ys) = some
      ⟨if xs = [] then n else ((runOf (xs ++ ys)).getD ⟨n, n⟩).first,
        if ys = [] then n else ((runOf (xs ++ ys)).getD ⟨n, n⟩).last⟩ := by
  cases xs with
  | nil =>
    cases ys with
    | nil => rfl
    | cons b ys => simp [runOf, List.getLast?_cons]
  | cons a xs =>
    cases ys with
    | nil => simp [runOf, List.getLast?_cons]
    | cons b ys => simp [runOf, List.getLast?_cons, List.getLast?_append]

theorem runOf_remove {n : NodeId} {xs ys : List NodeId} (hn : n ∉ xs ++ ys) :
    ∃ run, runOf (xs ++ n :: ys) = some run ∧ (run.first = n ↔ xs = []) ∧
      (run.last = n ↔ ys = []) ∧ ∀ as bs, runOf (xs ++ ys) =
        if xs = [] ∧ ys = [] then none
        else some ⟨if xs = [] then ((ys ++ bs).head?).getD n else run.first,
          if ys = [] then ((as ++ xs).getLast?).getD n else run.last⟩ := by
  rw [List.mem_append, not_or] at hn
  have hfirst : xs.head?.getD n = n ↔ xs = [] := by
    cases xs with
    | nil => simp
    | cons a xs =>
      have ha : a ≠ n := by
        intro heq
        subst heq
        exact hn.1 (by simp)
      simp [ha]
  have hlast : ys.getLast?.getD n = n ↔ ys = [] := by
    rcases List.eq_nil_or_concat ys with rfl | ⟨ys, b, rfl⟩
    · simp
    · have hb : b ≠ n := by
        intro heq
        subst heq
        exact hn.2 (by simp)
      simp [hb]
  refine ⟨⟨xs.head?.getD n, ys.getLast?.getD n⟩, ?_, hfirst, hlast, ?_⟩
  · cases xs <;> cases ys <;> simp [runOf, List.getLast?_append, List.getLast?_cons]
  · intro as bs
    cases xs <;> cases ys <;> simp [runOf, List.getLast?_append, List.getLast?_cons]

/-- The children of every parent, and the elements at the top, in order. -/
abbrev Layout := Option NodeId → List NodeId

def Forest.layout (f : Forest) : Layout := fun p =>
  match f.children p with
  | .ok l => l
  | .error _ => []

def Forest.group (f : Forest) (k : Layout) (p : Option NodeId) (t : SchemaId) : List NodeId :=
  (k p).filter (f.isOf t)

theorem Forest.length_le_slots {f : Forest} {l : List NodeId} (hnd : l.Nodup)
    (hslot : ∀ n ∈ l, ∃ slot, f.slots[n]? = some slot) : l.length ≤ f.slots.size := by
  have hsub : l ⊆ List.range f.slots.size := by
    intro n hn
    obtain ⟨slot, hslot⟩ := hslot n hn
    exact List.mem_range.2 (Array.getElem?_eq_some_iff.1 hslot).1
  simpa using (List.subperm_of_subset hnd hsub).length_le

/-- A change to elements that leaves alone where they stand and what they hold. -/
structure KeepsPlace (g : NodeId → Element → Element) : Prop where
  schema : ∀ i e, (g i e).schema = e.schema
  content : ∀ i e, (g i e).content = e.content
  parent : ∀ i e, (g i e).parent = e.parent
  prev : ∀ i e, (g i e).prev = e.prev
  next : ∀ i e, (g i e).next = e.next
  linked : ∀ i e, (g i e).linked = e.linked

/-- The forest is laid out as `k`: the links, the ends and the runs of all chains are right, every
element holds what its schema node accepts and stands where the schema allows it, and the
instances of a schema node stand together. -/
structure Laid (s : Schema) (f : Forest) (k : Layout) : Prop where
  slots_le : f.slots.size ≤ handleCount
  vacant_nodup : f.vacant.Nodup
  vacant_empty : ∀ i ∈ f.vacant, f.slots[i]? = some none
  empty_vacant : ∀ i : NodeId, f.slots[i]? = some none → i ∈ f.vacant
  typed : ∀ n e, f.get? n = some e → ∃ node, s.nodes[e.schema]? = some node ∧
    node.Accepts e.content
  nodup : ∀ p, (k p).Nodup
  links : ∀ p xs n ys, k p = xs ++ n :: ys → ∃ e, f.get? n = some e ∧ e.linked = true ∧
    e.parent = p ∧ e.prev = xs.getLast? ∧ e.next = ys.head?
  placed : ∀ n e, f.get? n = some e → e.linked = true → n ∈ k e.parent
  loose : ∀ n e, f.get? n = some e → e.linked = false →
    e.parent = none ∧ e.prev = none ∧ e.next = none
  childless : ∀ p, f.chain? p = none → k p = []
  first : ∀ p c, f.chain? p = some c → c.first = (k p).head?
  last : ∀ p c, f.chain? p = some c → c.last = (k p).getLast?
  runs : ∀ p c t, f.chain? p = some c → c.runs.get? t = runOf (f.group k p t)
  contiguous : ∀ p t, Contiguous (f.isOf t) (k p)
  below : ∀ p n e, n ∈ k p → f.get? n = some e → ∃ node, s.nodes[e.schema]? = some node ∧
    node.parent = p.bind f.kind?

namespace Laid

open Forest

variable {s : Schema} {f : Forest} {k : Layout} {p q : Option NodeId} {n : NodeId} {e : Element}

theorem exists_of_mem (h : Laid s f k) (hn : n ∈ k p) :
    ∃ e, f.get? n = some e ∧ e.linked = true ∧ e.parent = p := by
  obtain ⟨xs, ys, hsplit⟩ := List.append_of_mem hn
  obtain ⟨e, he, hlinked, hparent, -⟩ := h.links p xs n ys hsplit
  exact ⟨e, he, hlinked, hparent⟩

theorem isSome_of_mem (h : Laid s f k) (hn : n ∈ k p) : (f.kind? n).isSome := by
  obtain ⟨e, he, -⟩ := h.exists_of_mem hn
  simp [kind?, he]

theorem linked_of_mem (h : Laid s f k) (hn : n ∈ k p) (he : f.get? n = some e) :
    e.linked = true ∧ e.parent = p := by
  obtain ⟨e', he', hlinked, hparent⟩ := h.exists_of_mem hn
  cases he.symm.trans he'
  exact ⟨hlinked, hparent⟩

theorem links_of_get? (h : Laid s f k) {xs ys : List NodeId} (hk : k p = xs ++ n :: ys)
    (he : f.get? n = some e) :
    e.linked = true ∧ e.parent = p ∧ e.prev = xs.getLast? ∧ e.next = ys.head? := by
  obtain ⟨e', he', hlinks⟩ := h.links p xs n ys hk
  cases he.symm.trans he'
  exact hlinks

theorem unique_parent (h : Laid s f k) (hp : n ∈ k p) (hq : n ∈ k q) : p = q := by
  obtain ⟨e, he, -, hparent⟩ := h.exists_of_mem hp
  rw [← hparent]
  exact (h.linked_of_mem hq he).2

theorem not_mem_of_loose (h : Laid s f k) (he : f.get? n = some e) (hloose : e.linked = false) :
    n ∉ k p := by
  intro hn
  rw [(h.linked_of_mem hn he).1] at hloose
  cases hloose

theorem chain_of_mem (h : Laid s f k) (hn : n ∈ k p) : ∃ c, f.chain? p = some c := by
  cases hc : f.chain? p with
  | none =>
    rw [h.childless p hc] at hn
    cases hn
  | some c => exact ⟨c, rfl⟩

theorem alive_of_mem (h : Laid s f k) (hn : n ∈ k p) : f.Alive p := by
  intro i heq
  subst heq
  obtain ⟨c, hc⟩ := h.chain_of_mem hn
  obtain ⟨e, he, -⟩ := Option.bind_eq_some_iff.1 hc
  exact ⟨e, he⟩

theorem alive_last {xs ys : List NodeId} (h : Laid s f k)
    (hk : k p = xs ++ ys) : f.Alive xs.getLast? := by
  intro i hi
  obtain ⟨e, he, -⟩ := h.exists_of_mem (p := p) (n := i)
    (hk ▸ List.mem_append_left _ (List.mem_of_getLast? hi))
  exact ⟨e, he⟩

theorem alive_head {xs ys : List NodeId} (h : Laid s f k)
    (hk : k p = xs ++ ys) : f.Alive ys.head? := by
  intro i hi
  obtain ⟨e, he, -⟩ := h.exists_of_mem (p := p) (n := i)
    (hk ▸ List.mem_append_right _ (List.mem_of_head? hi))
  exact ⟨e, he⟩

theorem length_le (h : Laid s f k) (p : Option NodeId) : (k p).length ≤ f.slots.size := by
  apply length_le_slots (h.nodup p)
  intro n hn
  obtain ⟨e, he, -⟩ := h.exists_of_mem hn
  exact ⟨_, slot_of_get? he⟩

theorem length_le_handleCount (h : Laid s f k) {l : List NodeId} (hnd : l.Nodup)
    (hlive : ∀ n ∈ l, ∃ e, f.get? n = some e) : l.length ≤ handleCount := by
  refine Nat.le_trans (length_le_slots hnd fun n hn => ?_) h.slots_le
  obtain ⟨e, he⟩ := hlive n hn
  exact ⟨_, slot_of_get? he⟩

theorem length_vacant_le (h : Laid s f k) : f.vacant.length ≤ f.slots.size :=
  length_le_slots h.vacant_nodup fun i hi => ⟨none, h.vacant_empty i hi⟩

theorem mem_vacant_or_get? (h : Laid s f k) {i : NodeId} (hi : i < f.slots.size) :
    i ∈ f.vacant ∨ ∃ e, f.get? i = some e := by
  cases hslot : f.slots[i]? with
  | none => simp [Nat.not_le.2 hi] at hslot
  | some slot =>
    cases slot with
    | none => exact .inl (h.empty_vacant i hslot)
    | some e => exact .inr ⟨e, by simp [get?, hslot]⟩

theorem size_le (h : Laid s f k) : f.size ≤ handleCount :=
  Nat.le_trans (Nat.sub_le ..) h.slots_le

theorem siblingsFrom_eq (h : Laid s f k) {xs ys : List NodeId} (hk : k p = xs ++ ys)
    {fuel : Nat} (hfuel : ys.length ≤ fuel) : f.siblingsFrom fuel ys.head? = .ok ys := by
  induction ys generalizing xs fuel with
  | nil => cases fuel <;> rfl
  | cons n ys ih =>
    obtain ⟨fuel, rfl⟩ : ∃ g, fuel = g + 1 := ⟨fuel - 1, by simp at hfuel; omega⟩
    obtain ⟨e, he, -, -, -, hnext⟩ := h.links p xs n ys hk
    have hpassed : k p = (xs ++ [n]) ++ ys := by simpa using hk
    have hrest := ih hpassed (by simpa using hfuel)
    simp only [List.head?_cons, siblingsFrom, element_of_get? he, ok_bind, hnext, hrest]
    rfl

theorem children_eq (h : Laid s f k) (hp : f.Alive p) : f.children p = .ok (k p) := by
  simp only [Forest.children, firstChild, children?_eq hp, ok_bind]
  have hfirst : (f.chain? p).bind (·.first) = (k p).head? := by
    cases hc : f.chain? p with
    | none => simp [h.childless p hc]
    | some c => simp [h.first p c hc]
  have hlen := h.length_le p
  rw [hfirst]
  exact h.siblingsFrom_eq (List.nil_append _).symm (by simp [steps]; omega)

theorem eq_of_children (h : Laid s f k) {l : List NodeId} (hl : f.children p = .ok l) :
    f.Alive p ∧ l = k p := by
  have hp : f.Alive p := by
    intro i heq
    subst heq
    simp only [Forest.children, firstChild, children?, bind_eq_ok] at hl
    obtain ⟨_, ⟨_, ⟨e, he, -⟩, -⟩, -⟩ := hl
    exact ⟨e, element_eq_some.1 he⟩
  rw [h.children_eq hp] at hl
  exact ⟨hp, (Except.ok.inj hl).symm⟩

/-- There is one layout at most, and it can be read off the links. -/
theorem eq_layout (h : Laid s f k) : k = f.layout := by
  funext p
  unfold layout
  cases hc : f.children p with
  | ok l => exact (h.eq_of_children hc).2.symm
  | error why =>
    cases hk : k p with
    | nil => rfl
    | cons n ys =>
      have hp := h.alive_of_mem (p := p) (n := n) (by simp [hk])
      cases hc.symm.trans (h.children_eq hp)

theorem lastChild_eq (h : Laid s f k) (hp : f.Alive p) : f.lastChild p = .ok (k p).getLast? := by
  simp only [lastChild, children?_eq hp, ok_bind]
  cases hc : f.chain? p with
  | none =>
    rw [h.childless p hc]
    rfl
  | some c =>
    rw [← h.last p c hc]
    rfl

theorem run?_eq (h : Laid s f k) (hp : f.Alive p) (t : SchemaId) :
    f.run? p t = .ok (runOf (f.group k p t)) := by
  simp only [run?, children?_eq hp, ok_bind]
  cases hc : f.chain? p with
  | none =>
    rw [group, h.childless p hc]
    rfl
  | some c =>
    rw [← h.runs p c t hc]
    rfl

theorem runStart_eq (h : Laid s f k) (hp : f.Alive p) (t : SchemaId) :
    f.runStart p t = .ok (f.group k p t).head? := by
  simp only [runStart, h.run?_eq hp, ok_bind]
  exact congrArg Except.ok (runOf_map_first _)

theorem runEnd_eq (h : Laid s f k) (hp : f.Alive p) (t : SchemaId) :
    f.runEnd p t = .ok (f.group k p t).getLast? := by
  simp only [runEnd, h.run?_eq hp, ok_bind]
  exact congrArg Except.ok (runOf_map_last _)

theorem chain_of_parent (h : Laid s f k) (hs : s.Built) (hp : f.Alive p) {t : SchemaId}
    {node : SchemaNode} (hnode : s.nodes[t]? = some node) (hparent : node.parent = p.bind f.kind?) :
    ∃ c, f.chain? p = some c := by
  cases p with
  | none => exact ⟨f.top, rfl⟩
  | some i =>
    obtain ⟨e, he⟩ := hp i rfl
    obtain ⟨m, hm, hopen⟩ := hs.parent_hosts hnode (p := e.schema) (by simp [hparent, kind?, he])
    obtain ⟨m', hm', haccepts⟩ := h.typed i e he
    cases hm.symm.trans hm'
    cases hcontent : e.content with
    | term v =>
      rw [hcontent] at haccepts
      cases hopen.symm.trans haccepts
    | inner c => exact ⟨c, by simp [chain?, he, Element.children?, hcontent]⟩

theorem kind_lt_of_mem (h : Laid s f k) (hs : s.Built) {i : NodeId} (hn : n ∈ k (some i)) :
    ∃ t t', f.kind? i = some t ∧ f.kind? n = some t' ∧ t < t' := by
  obtain ⟨e, he, -⟩ := h.exists_of_mem hn
  obtain ⟨node, hnode, hparent⟩ := h.below _ n e hn he
  obtain ⟨ei, hei⟩ := h.alive_of_mem hn i rfl
  have hkind : f.kind? i = some ei.schema := by simp [kind?, hei]
  exact ⟨ei.schema, e.schema, hkind, by simp [kind?, he],
    hs.parent_lt hnode (hparent.trans hkind)⟩

theorem not_mem_self (h : Laid s f k) (hs : s.Built) : n ∉ k (some n) := by
  intro hn
  obtain ⟨t, t', ht, ht', hlt⟩ := h.kind_lt_of_mem hs hn
  cases ht.symm.trans ht'
  exact Nat.lt_irrefl _ hlt

/-- What leaves alone where elements stand and what they hold leaves the layout alone. -/
theorem retouch (h : Laid s f k) {g : NodeId → Element → Element} (hg : KeepsPlace g) :
    Laid s (f.retouch g id) k := by
  have hkind := kind?_retouch (f := f) (t := id) hg.schema
  have hisOf := isOf_retouch (f := f) (t := id) hg.schema
  have hchain := chain?_retouch (f := f) hg.content
  constructor
  case slots_le => exact Nat.le_trans (Nat.le_of_eq (slots_size_retouch ..)) h.slots_le
  case vacant_nodup => exact h.vacant_nodup
  case vacant_empty => exact fun i hi => empty_retouch _ _ _ _ (h.vacant_empty i hi)
  case empty_vacant => exact fun i hi => h.empty_vacant i (empty_of_retouch _ _ _ _ hi)
  case typed =>
    intro n e he
    obtain ⟨e', he', rfl⟩ := (get?_retouch_eq_some ..).1 he
    rw [hg.schema, hg.content]
    exact h.typed n e' he'
  case nodup => exact h.nodup
  case links =>
    intro p xs n ys hk
    obtain ⟨e, he, hlinks⟩ := h.links p xs n ys hk
    refine ⟨g n e, (get?_retouch_eq_some ..).2 ⟨e, he, rfl⟩, ?_⟩
    rwa [hg.linked, hg.parent, hg.prev, hg.next]
  case placed =>
    intro n e he hlinked
    obtain ⟨e', he', rfl⟩ := (get?_retouch_eq_some ..).1 he
    rw [hg.linked] at hlinked
    rw [hg.parent]
    exact h.placed n e' he' hlinked
  case loose =>
    intro n e he hloose
    obtain ⟨e', he', rfl⟩ := (get?_retouch_eq_some ..).1 he
    rw [hg.linked] at hloose
    rw [hg.parent, hg.prev, hg.next]
    exact h.loose n e' he' hloose
  case childless => exact fun p hp => h.childless p (hchain p ▸ hp)
  case first => exact fun p c hc => h.first p c (hchain p ▸ hc)
  case last => exact fun p c hc => h.last p c (hchain p ▸ hc)
  case runs =>
    intro p c t hc
    rw [group, hisOf]
    exact h.runs p c t (hchain p ▸ hc)
  case contiguous =>
    intro p t
    rw [hisOf]
    exact h.contiguous p t
  case below =>
    intro p n e hn he
    obtain ⟨e', he', rfl⟩ := (get?_retouch_eq_some ..).1 he
    obtain ⟨node, hnode, hparent⟩ := h.below p n e' hn he'
    refine ⟨node, by rwa [hg.schema], hparent.trans ?_⟩
    cases p with
    | none => rfl
    | some i => exact (hkind i).symm

end Laid

end InstanceTree
