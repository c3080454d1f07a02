import InstanceTree.Proofs.RedBlack.Audit
import InstanceTree.Proofs.RedBlack.Draining
import InstanceTree.Proofs.RedBlack.Removal
import InstanceTree.Proofs.RedBlack.Search
import InstanceTree.RedBlack.Bag

namespace InstanceTree.RedBlack

open Arena

variable {α : Type}

namespace Arena

variable {a : Arena α} {nodes : List Nat}

theorem entries_map_fst (h : ∀ i ∈ nodes, i < a.size) :
    (a.entries nodes).map (·.1) = nodes := by
  induction nodes with
  | nil => rfl
  | cons i nodes ih =>
    have hi := Array.getElem?_eq_getElem (h i (by simp))
    rw [entries_cons hi, List.map_cons, ih fun j hj => h j (by simp [hj])]

theorem mem_entries {n : Nat} {e : α} :
    (n, e) ∈ a.entries nodes ↔ n ∈ nodes ∧ ∃ m, a[n]? = some m ∧ m.elem = e := by
  simp only [entries, List.mem_filterMap, Option.map_eq_some_iff, Prod.mk.injEq]
  constructor
  · intro hsome
    obtain ⟨i, hi, m, hm, rfl, he⟩ := hsome
    exact ⟨hi, m, hm, he⟩
  · intro hn'
    obtain ⟨hn, m, hm, he⟩ := hn'
    exact ⟨n, hn, m, hm, rfl, he⟩

theorem entries_erase (h : ∀ i ∈ nodes, i < a.size) (n : Nat) :
    a.entries (nodes.erase n) = (a.entries nodes).eraseP fun x => x.1 == n := by
  induction nodes with
  | nil => rfl
  | cons i nodes ih =>
    have hi := Array.getElem?_eq_getElem (h i (by simp))
    rw [entries_cons hi]
    by_cases hin : i = n
    · subst hin
      simp
    · rw [List.erase_cons_tail (by simpa using hin), entries_cons hi,
        List.eraseP_cons_of_neg (by simpa using hin), ih fun j hj => h j (by simp [hj])]

theorem entries_perm {l l' : List Nat} (h : l.Perm l') : (a.entries l).Perm (a.entries l') :=
  h.filterMap _

theorem entries_congr {b : Arena α} (h : ∀ i ∈ nodes, b[i]? = a[i]?) :
    b.entries nodes = a.entries nodes :=
  List.filterMap_congr fun i hi => by rw [h i hi]

end Arena

namespace Bag

/-- The bag is a red-black tree of the nodes and elements `es`, in this order; the indices kept
for reuse are not among them, and there are no other ones. -/
structure Contains (b : Bag α) (es : List (Nat × α)) : Prop where
  tree : ∃ (t : Shape) (k : Nat), b.rooted.Focus [] t ∧ t.Balanced true k ∧
    b.nodes.entries t.inorder = es
  count : b.count = es.length
  free_nodup : b.free.Nodup
  free_lt : ∀ i ∈ b.free, i < b.nodes.size
  free_unused : ∀ i ∈ b.free, i ∉ es.map (·.1)
  slots : b.nodes.size = es.length + b.free.length
  slots_le : b.nodes.size ≤ handleCount

/-- The slots after `b` has given the index `n` out: it was the one released last, or the arena
has grown by it. -/
def Gives (b : Bag α) (n : Nat) (b' : Bag α) : Prop :=
  b.free = n :: b'.free ∧ b'.nodes.size = b.nodes.size ∨
    b.free = [] ∧ b'.free = [] ∧ n = b.nodes.size ∧ b'.nodes.size = b.nodes.size + 1

theorem contains_empty (limit : Option Nat) : (empty limit : Bag α).Contains [] := by
  refine ⟨⟨.leaf, 0, ⟨rfl, trivial, by simp [Shape.inorder, Path.indices]⟩, .leaf, rfl⟩, rfl,
    List.nodup_nil, ?_, ?_, rfl, Nat.zero_le _⟩
  · simp [empty]
  · simp

theorem isFull_iff (b : Bag α) : b.isFull = true ↔
    ∃ limit, b.limit = some limit ∧ limit ≤ b.count := by
  cases hl : b.limit <;> simp [isFull, hl]

theorem isFull_iff_eq {b : Bag α} (hle : ∀ l, b.limit = some l → b.count ≤ l) :
    b.isFull = true ↔ b.limit = some b.count := by
  rw [isFull_iff]
  constructor
  · intro hfull
    obtain ⟨l, hl, hcount⟩ := hfull
    rw [hl, Nat.le_antisymm hcount (hle l hl)]
  · intro hl
    exact ⟨_, hl, Nat.le_refl _⟩

theorem count_lt {b : Bag α} (hfull : b.isFull = false) {l : Nat} (hl : b.limit = some l) :
    b.count < l := by
  apply Nat.lt_of_not_le
  intro hle
  rw [(isFull_iff b).2 ⟨l, hl, hle⟩] at hfull
  cases hfull

/-- There is a node for another element: the bag is not full, and if no node is free, an index is
left for a new one and memory is granted for it. -/
def HasRoom (granted : Bool) (b : Bag α) : Prop :=
  b.isFull = false ∧ (b.free = [] → b.nodes.size < handleCount ∧ granted = true)

theorem allocate_refused {granted : Bool} {b : Bag α} (h : ¬b.HasRoom granted) (e : α) :
    b.allocate granted e = .ok (b, none) := by
  rw [allocate]
  cases hfull : b.isFull with
  | true => rfl
  | false =>
    cases hfree : b.free with
    | cons n free => exact absurd ⟨hfull, fun hnil => by simp [hfree] at hnil⟩ h
    | nil => exact if_neg fun hroom => h ⟨hfull, fun _ => hroom⟩

theorem isSome_of_allocate {granted : Bool} {b b' : Bag α} {e : α} {node : Option Nat}
    (hroom : b.HasRoom granted) (h : b.allocate granted e = .ok (b', node)) :
    ∃ n, node = some n := by
  simp only [allocate, hroom.1, Bool.false_eq_true, if_false] at h
  cases hfree : b.free with
  | nil =>
    simp only [hfree, if_pos (hroom.2 hfree)] at h
    cases h
    exact ⟨_, rfl⟩
  | cons n free =>
    simp only [hfree] at h
    obtain ⟨a, -, h⟩ := bind_eq_ok.1 h
    cases h
    exact ⟨n, rfl⟩

theorem insert_eq_refused {cmp : Comparator α} {granted : Bool} {b b' : Bag α} {e : α} :
    b.insert cmp granted e = .ok (b', none) ↔ b' = b ∧ ¬b.HasRoom granted := by
  constructor
  · intro hnone
    have hroom : ¬b.HasRoom granted := by
      intro hroom
      obtain ⟨⟨b₁, node⟩, hout, hnone⟩ := bind_eq_ok.1 hnone
      obtain ⟨n, rfl⟩ := isSome_of_allocate hroom hout
      obtain ⟨t, -, hnone⟩ := bind_eq_ok.1 hnone
      cases hnone
    simp only [insert, allocate_refused hroom, ok_bind] at hnone
    cases hnone
    exact ⟨rfl, hroom⟩
  · rintro ⟨rfl, hroom⟩
    simp only [insert, allocate_refused hroom, ok_bind]
    rfl

theorem hasRoom_of_insert {cmp : Comparator α} {granted : Bool} {b b' : Bag α} {e : α} {n : Nat}
    (h : b.insert cmp granted e = .ok (b', some n)) : b.HasRoom granted := by
  by_contra hroom
  cases (insert_eq_refused.2 ⟨rfl, hroom⟩).symm.trans h

theorem insert?_refused {cmp : Comparator α} {b : Bag α} (hroom : ¬b.HasRoom true) (e : α) :
    b.insert? cmp e = .ok none := by
  simp only [insert?, insert_eq_refused.2 ⟨rfl, hroom⟩, ok_bind]
  rfl

/-- A bag takes no other element: its limit or the number of indices is reached, or no node is free
and no memory is granted for a new one. -/
def Exhausted (granted : Bool) (b : Bag α) : Prop :=
  b.limit = some b.count ∨ b.count = handleCount ∨ b.free = [] ∧ granted = false

namespace Contains

variable {b : Bag α} {es : List (Nat × α)}

theorem map_fst (h : b.Contains es) :
    ∃ (t : Shape) (k : Nat), b.rooted.Focus [] t ∧ t.Balanced true k ∧
      b.nodes.entries t.inorder = es ∧ es.map (·.1) = t.inorder := by
  obtain ⟨t, k, hf, ht, rfl⟩ := h.tree
  exact ⟨t, k, hf, ht, rfl, entries_map_fst fun i hi => hf.below.lt_size hi⟩

theorem nodup (h : b.Contains es) : (es.map (·.1)).Nodup := by
  obtain ⟨t, k, hf, -, -, hfst⟩ := h.map_fst
  exact hfst ▸ hf.nodes_disjoint.1

theorem toList_eq (h : b.Contains es) : b.toList = .ok (es.map (·.2)) := by
  obtain ⟨t, k, hf, -, rfl⟩ := h.tree
  exact Rooted.elements_eq hf

theorem drain_spec (h : b.Contains es) :
    Yields b.drain fun out => out.1 = empty b.limit ∧ out.2.Perm (es.map (·.2)) := by
  obtain ⟨t, k, hf, -, rfl⟩ := h.tree
  apply (Rooted.drain_spec hf).bind
  intro out hgone
  obtain ⟨a, gone⟩ := out
  refine .intro rfl ⟨rfl, ?_⟩
  have hperm := hgone.map (·.2)
  rw [List.map_map] at hperm
  exact hperm

theorem not_hasRoom_iff (h : b.Contains es) (hle : ∀ l, b.limit = some l → es.length ≤ l)
    {granted : Bool} : ¬b.HasRoom granted ↔ b.Exhausted granted := by
  have hfull := isFull_iff_eq fun l hl => h.count ▸ hle l hl
  have hslots := h.slots
  have hslots_le := h.slots_le
  have hcount := h.count
  rw [HasRoom, Exhausted, ← hfull]
  cases hb : b.isFull with
  | true => simp
  | false =>
    cases hfree : b.free with
    | cons n free =>
      rw [hfree, List.length_cons] at hslots
      simp only [reduceCtorEq, IsEmpty.forall_iff, and_self, not_true_eq_false,
        Bool.false_eq_true, false_and, or_false, false_or, false_iff]
      omega
    | nil =>
      rw [hfree, List.length_nil] at hslots
      cases granted with
      | false => simp
      | true =>
        simp only [true_and, and_true, forall_const, Nat.not_lt, Bool.false_eq_true,
          Bool.true_eq_false, and_false, or_false, false_or]
        omega

/-- Where there is memory only the limit and the number of indices make a bag refuse. -/
theorem hasRoom (h : b.Contains es) (hfull : b.isFull = false) (hlt : es.length < handleCount) :
    b.HasRoom true := by
  refine ⟨hfull, fun hfree => ⟨?_, rfl⟩⟩
  rw [h.slots, hfree]
  exact hlt

theorem allocate_spec (h : b.Contains es) {granted : Bool} (hroom : b.HasRoom granted) (e : α) :
    Yields (b.allocate granted e) fun out => ∃ n, out.2 = some n ∧
      out.1 = { b with nodes := out.1.nodes, free := out.1.free } ∧
      (∀ i ∈ es.map (·.1), out.1.nodes[i]? = b.nodes[i]?) ∧
      out.1.nodes[n]? = some (.detached e) ∧ n ∉ es.map (·.1) ∧ b.Gives n out.1 := by
  obtain ⟨t, k, hf, -, -, hfst⟩ := h.map_fst
  have hlt : ∀ i ∈ es.map (·.1), i < b.nodes.size := by
    rw [hfst]
    exact fun i hi => hf.below.lt_size hi
  cases hfree : b.free with
  | nil =>
    refine .intro (a := ({ b with nodes := b.nodes.push (.detached e) }, some b.nodes.size)) ?_ ?_
    · simp only [allocate, hroom.1, Bool.false_eq_true, if_false, hfree, if_pos (hroom.2 hfree)]
    · refine ⟨_, rfl, rfl, fun i hi => ?_, by simp, fun hi => Nat.lt_irrefl _ (hlt _ hi),
        .inr ⟨hfree, hfree, rfl, Array.size_push _⟩⟩
      have hlt := hlt i hi
      rw [Array.getElem?_push, if_neg (by omega)]
  | cons n free =>
    have hn : n ∉ es.map (·.1) := h.free_unused n (by simp [hfree])
    have hsize : n < b.nodes.size := h.free_lt n (by simp [hfree])
    refine .intro (a := ({ b with
        nodes := b.nodes.retouch fun j m => if j = n then .detached e else m, free }, some n)) ?_ ?_
    · simp only [allocate, hroom.1, Bool.false_eq_true, if_false, hfree,
        update_eq_retouch (Array.getElem?_eq_getElem hsize), ok_bind]
      rfl
    · refine ⟨n, rfl, rfl, fun i hi => ?_, ?_, hn, .inl ⟨hfree, size_retouch ..⟩⟩
      · have hin : i ≠ n := by
          intro heq
          subst heq
          exact hn hi
        exact getElem?_retouch_fixed _ fun m => by simp [hin]
      · rw [getElem?_retouch, Array.getElem?_eq_getElem hsize]
        simp

theorem free_of_gives (h : b.Contains es) {granted : Bool} (hroom : b.HasRoom granted) {n : Nat}
    {b' : Bag α} (hgives : b.Gives n b') : b'.free.Nodup ∧ n ∉ b'.free ∧
      (∀ i ∈ b'.free, i < b'.nodes.size ∧ i ∉ es.map (·.1)) ∧
      b'.nodes.size = es.length + 1 + b'.free.length ∧ b'.nodes.size ≤ handleCount := by
  have hslots := h.slots
  rcases hgives with ⟨hfree, hsize⟩ | ⟨hfree, hfree', -, hsize⟩
  · have hnd := h.free_nodup
    rw [hfree, List.nodup_cons] at hnd
    rw [hfree, List.length_cons] at hslots
    refine ⟨hnd.2, hnd.1, fun i hi => ⟨?_, ?_⟩, by omega, hsize ▸ h.slots_le⟩
    · exact hsize ▸ h.free_lt i (by simp [hfree, hi])
    · exact h.free_unused i (by simp [hfree, hi])
  · have hlt := (hroom.2 hfree).1
    rw [hfree, List.length_nil] at hslots
    rw [hfree', List.length_nil]
    exact ⟨List.nodup_nil, by simp, by simp, by omega, by omega⟩

theorem insert_of_tree {cmp : Comparator α} {granted : Bool} {e : α}
    {P : Nat → List (Nat × α) → Prop} (h : b.Contains es) (hroom : b.HasRoom granted)
    (htree : ∀ {r : Rooted α} {t : Shape} {k n : Nat}, r.Focus [] t → t.Balanced true k →
      r.arena.entries t.inorder = es → r.arena[n]? = some (.detached e) → n ∉ t.inorder →
      Yields (r.insert cmp n) fun r' => ∃ t' k', r'.Focus [] t' ∧ t'.Balanced true k' ∧
        t'.inorder.Perm (n :: t.inorder) ∧ Rooted.Touches t'.inorder r r' ∧
        P n (r'.arena.entries t'.inorder)) :
    Yields (b.insert cmp granted e) fun out => ∃ n es', out.2 = some n ∧ out.1.Contains es' ∧
      es'.Perm ((n, e) :: es) ∧ P n es' ∧ n ∉ es.map (·.1) ∧ b.Gives n out.1 ∧
        out.1.limit = b.limit := by
  obtain ⟨t, k, hf, ht, hes, hfst⟩ := h.map_fst
  apply (h.allocate_spec hroom e).bind
  intro out hout
  obtain ⟨b₁, node⟩ := out
  obtain ⟨n, rfl, hb₁, hsame, hn, hnew, hgives⟩ := hout
  dsimp only at hb₁ hsame hn hgives ⊢
  obtain ⟨hnodup, hnf, hfree, hslots, hslots_le⟩ := h.free_of_gives hroom hgives
  rw [hfst] at hsame
  have hf₁ : b₁.rooted.Focus [] t := by
    rw [hb₁]
    exact ⟨hf.around, hf.below.frame hsame, hf.nodup⟩
  have hes₁ : b₁.nodes.entries t.inorder = es := (entries_congr hsame).trans hes
  apply (htree hf₁ ht hes₁ hn (hfst ▸ hnew)).bind
  intro r hr
  obtain ⟨t', k', hf', ht', hperm, htouch, hP⟩ := hr
  have hentries : (r.arena.entries t'.inorder).Perm ((n, e) :: es) := by
    rw [htouch.entries, ← hes₁]
    exact entries_cons hn ▸ entries_perm hperm
  have hsize : r.arena.size = b₁.nodes.size := htouch.size
  have hlen := hentries.length_eq
  rw [List.length_cons] at hlen
  have hcount : b₁.count = es.length := by rw [hb₁, h.count]
  refine .intro rfl ⟨n, _, rfl, ⟨⟨t', k', hf', ht', rfl⟩, ?_, hnodup, ?_, ?_, ?_, ?_⟩, hentries,
    hP, hnew, ?_, ?_⟩
  · show b₁.count + 1 = _
    rw [hcount, hlen]
  · exact fun i hi => hsize ▸ (hfree i hi).1
  · intro i hi
    rw [(hentries.map _).mem_iff, List.map_cons, List.mem_cons, not_or]
    refine ⟨?_, (hfree i hi).2⟩
    intro heq
    subst heq
    exact hnf hi
  · rw [hlen, hsize]
    exact hslots
  · exact hsize ▸ hslots_le
  · simpa only [Gives, hsize] using hgives
  · rw [hb₁]

section Sorted

variable {cmp : Comparator α} {c : α → α → Ordering} {S : α → Prop}

theorem insert_spec (h : b.Contains es) {granted : Bool} (hroom : b.HasRoom granted) {e : α}
    (hs : cmp.Sorts c S) (he : S e) (hin : ∀ x ∈ es, S x.2)
    (hasc : es.Pairwise fun x y => c x.2 y.2 ≠ .gt) :
    Yields (b.insert cmp granted e) fun out => ∃ n, out.2 = some n ∧
      out.1.Contains (stably (fun x => (c x.2 e).isGT) (n, e) es) ∧ n ∉ es.map (·.1) ∧
        out.1.limit = b.limit := by
  apply (h.insert_of_tree (P := fun n es' => es' = stably (fun x => (c x.2 e).isGT) (n, e) es)
    hroom ?_).mono
  · intro out hout
    obtain ⟨n, es', hnode, hb', -, rfl, hn, -, hlimit⟩ := hout
    exact ⟨n, hnode, hb', hn, hlimit⟩
  · intro r t k n hf ht hes hnew hn
    subst hes
    rw [← within_iff] at hin
    rw [← ascending_iff] at hasc
    apply (Rooted.insert_sorted hf ht hnew hn hs he hin hasc).mono
    intro r' hr'
    obtain ⟨t', k', hf', ht', hentries, hperm, htouch⟩ := hr'
    exact ⟨t', k', hf', ht', hperm, htouch, hentries⟩

theorem insert?_eq (h : b.Contains es) (hroom : b.HasRoom true) {e : α} (hs : cmp.Sorts c S)
    (he : S e) (hin : ∀ x ∈ es, S x.2) (hasc : es.Pairwise fun x y => c x.2 y.2 ≠ .gt) :
    ∃ b' n, b.insert? cmp e = .ok (some (b', n)) ∧
      b'.Contains (stably (fun x => (c x.2 e).isGT) (n, e) es) ∧ b'.limit = b.limit := by
  obtain ⟨⟨b', node⟩, hout, n, rfl, hb', -, hlimit⟩ := h.insert_spec hroom hs he hin hasc
  refine ⟨b', n, ?_, hb', hlimit⟩
  simp only [insert?, hout, ok_bind]
  rfl

theorem check_eq (h : b.Contains es) (hs : cmp.Sorts c S) (hin : ∀ x ∈ es, S x.2)
    (hasc : es.Pairwise fun x y => c x.2 y.2 ≠ .gt) : ∃ k, b.check cmp = pure k := by
  obtain ⟨t, k, hf, ht, rfl, hfst⟩ := h.map_fst
  rw [← within_iff] at hin
  rw [← ascending_iff] at hasc
  have hcheck : b.nodes.check cmp b.root = pure k := Rooted.check_eq hf ht hs hin hasc
  have hsize : b.nodes.treeSize b.root = .ok b.count := by
    have hroot : b.root = t.root? := hf.around
    have hheight := t.height_le_length
    have hlen := hf.length_lt
    rw [h.count, ← List.length_map (fun x : Nat × α => x.1), hfst, hroot]
    exact sizeBelow_eq hf.below (Nat.le_trans hheight (Nat.le_of_lt hlen))
  exact ⟨k, by simp [check, hcheck, hsize]⟩

theorem find_eq [DecidableEq α] (h : b.Contains es) (hs : cmp.Sorts c S) (hin : ∀ x ∈ es, S x.2)
    (hasc : es.Pairwise fun x y => c x.2 y.2 ≠ .gt) {n : Nat} {e : α} (hn : (n, e) ∈ es)
    (hunique : (es.map (·.2)).Nodup) : b.find cmp e = .ok (some n) := by
  obtain ⟨t, k, hf, ht, rfl, hfst⟩ := h.map_fst
  rw [← within_iff] at hin
  rw [← ascending_iff] at hasc
  obtain ⟨found, hfound, hfinds⟩ :=
    (⟨hf, hs, hin, hasc⟩ : b.rooted.Ordered t cmp c S).find_spec (within_iff.1 hin (n, e) hn)
  have hres : b.find cmp e = .ok found := hfound
  cases found with
  | none => exact absurd (mem_entries.1 hn).2 (hfinds n (mem_entries.1 hn).1)
  | some i =>
    have hi : (i, e) ∈ b.nodes.entries t.inorder := mem_entries.2 hfinds
    have hin : i = n := congrArg Prod.fst (List.inj_on_of_nodup_map hunique hi hn rfl)
    rw [hres, hin]

end Sorted

theorem remove_spec (h : b.Contains es) {n : Nat} (hn : n ∈ es.map (·.1)) :
    Yields (b.remove n) fun b' =>
      b'.Contains (es.eraseP fun x => x.1 == n) ∧ b'.limit = b.limit ∧ b'.free = n :: b.free ∧
        b'.nodes.size = b.nodes.size := by
  obtain ⟨t, k, hf, ht, hes, hfst⟩ := h.map_fst
  have hmem : n ∈ t.inorder := hfst ▸ hn
  have hnd := hf.nodes_disjoint.1
  have hlt : ∀ i ∈ t.inorder, i < b.nodes.size := fun i hi => hf.below.lt_size hi
  have hpos : b.count ≠ 0 := by
    rw [h.count, ← List.length_map (fun x : Nat × α => x.1)]
    exact Nat.ne_of_gt (List.length_pos_of_mem hn)
  apply (Rooted.remove_spec hf ht hmem).bind
  intro r hr
  obtain ⟨t', k', hf', ht', hin, htouch⟩ := hr
  simp only [hpos, if_false]
  have hentries : r.arena.entries t'.inorder = es.eraseP fun x => x.1 == n := by
    rw [htouch.entries, hin, ← hes]
    exact entries_erase hlt n
  have hfst' : (es.eraseP fun x => x.1 == n).map (·.1) = t.inorder.erase n := by
    rw [← hin, ← hentries]
    exact entries_map_fst fun i hi => hf'.below.lt_size hi
  have hlen : (es.eraseP fun x => x.1 == n).length = b.count - 1 := by
    rw [← List.length_map (fun x : Nat × α => x.1), hfst', List.length_erase_of_mem hmem, ← hfst,
      List.length_map, ← h.count]
  refine .intro rfl ⟨⟨⟨t', k', hf', ht', hentries⟩, hlen.symm, ?_, ?_, ?_, ?_, ?_⟩, rfl, rfl,
    htouch.size⟩
  · exact List.nodup_cons.2 ⟨fun hfree => h.free_unused n hfree hn, h.free_nodup⟩
  · intro i hi
    rw [htouch.size]
    rcases List.mem_cons.1 hi with rfl | hi
    · exact hlt i hmem
    · exact h.free_lt i hi
  · intro i hi
    rw [hfst']
    rcases List.mem_cons.1 hi with rfl | hi
    · exact hnd.not_mem_erase
    · exact fun hc => h.free_unused i hi (hfst ▸ List.mem_of_mem_erase hc)
  · have hsize : r.arena.size = b.nodes.size := htouch.size
    have hslots := h.slots
    have hcount := h.count
    rw [hlen, List.length_cons]
    show r.arena.size = _
    omega
  · exact htouch.size.trans_le h.slots_le

theorem prev_eq (h : b.Contains es) {n : Nat} {e : α} {xs ys : List (Nat × α)}
    (hes : es = xs ++ (n, e) :: ys) : b.prev n = .ok (xs.getLast?.map (·.1)) := by
  obtain ⟨t, k, hf, -, -, hfst⟩ := h.map_fst
  have horder : t.order (Side.left).opp =
      (ys.map (·.1)).reverse ++ n :: (xs.map (·.1)).reverse := by
    rw [Side.opp_left, Shape.order, ← hfst, hes]
    simp
  have hprev : b.nodes.prev n = .ok (xs.map (·.1)).reverse.head? :=
    Rooted.neighbour_eq .left hf horder
  rw [prev, hprev, List.head?_reverse, List.getLast?_map]

theorem elem_eq (h : b.Contains es) {n : Nat} {e : α} (hn : (n, e) ∈ es) : b.elem n = .ok e := by
  obtain ⟨t, k, -, -, rfl⟩ := h.tree
  obtain ⟨-, m, hm, rfl⟩ := mem_entries.1 hn
  simp only [elem, node_of_getElem? hm, ok_bind]
  rfl

end Contains

end Bag

end InstanceTree.RedBlack
