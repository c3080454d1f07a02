import InstanceTree.Proofs.RedBlack.Ledger

namespace InstanceTree.RedBlack

open Arena

variable {α : Type}

namespace Bag

variable {limit : Option Nat} {b : Bag α} {live : List (Nat × α)} {peak : Nat}

/-- The bags that insertions with any comparisons, removals and draining lead to, each with the
entries that are in use and with the largest number of elements since the arena was empty. -/
inductive Issued (limit : Option Nat) : Bag α → List (Nat × α) → Nat → Prop
  | start : Issued limit (empty limit) [] 0
  | insert {b b' : Bag α} {live : List (Nat × α)} {peak n : Nat} (c : α → α → Ordering)
      (granted : Bool) (e : α) : Issued limit b live peak →
      b.insert (.always c) granted e = .ok (b', some n) →
      Issued limit b' ((n, e) :: live) (max peak b'.count)
  | refuse {b b' : Bag α} {live : List (Nat × α)} {peak : Nat} (c : α → α → Ordering)
      (granted : Bool) (e : α) : Issued limit b live peak →
      b.insert (.always c) granted e = .ok (b', none) → Issued limit b' live peak
  | remove {b b' : Bag α} {live : List (Nat × α)} {peak n : Nat} : Issued limit b live peak →
      n ∈ live.map (·.1) → b.remove n = .ok b' →
      Issued limit b' (live.eraseP fun x => x.1 == n) (max peak b'.count)
  | drain {b b' : Bag α} {live : List (Nat × α)} {peak : Nat} {gone : List α} :
      Issued limit b live peak → b.drain = .ok (b', gone) → Issued limit b' [] 0

/-- Every slot is in use or free, and no slot is both or is free twice. -/
structure Accounts (limit : Option Nat) (b : Bag α) (live : List (Nat × α)) (peak : Nat) :
    Prop where
  contents : ∃ es, b.Contains es ∧ es.Perm live
  slots : (live.map (·.1) ++ b.free).Perm (List.range b.nodes.size)
  size_eq : b.nodes.size = peak
  limit_eq : b.limit = limit
  length_le : ∀ l, limit = some l → live.length ≤ l

theorem Gives.slots {b' : Bag α} {n : Nat} (h : b.Gives n b') {nodes : List Nat}
    (hb : (nodes ++ b.free).Perm (List.range b.nodes.size)) :
    ((n :: nodes) ++ b'.free).Perm (List.range b'.nodes.size) := by
  rcases h with ⟨hfree, hsize⟩ | ⟨hfree, hfree', rfl, hsize⟩
  · rw [hsize]
    rw [hfree] at hb
    exact List.perm_middle.symm.trans hb
  · rw [hfree, List.append_nil] at hb
    rw [hfree', List.append_nil, hsize, List.range_succ]
    exact (hb.cons _).trans (List.perm_append_singleton _ _).symm

theorem accounts_empty (limit : Option Nat) : (empty limit : Bag α).Accounts limit [] 0 :=
  ⟨⟨[], contains_empty limit, .nil⟩, .nil, rfl, rfl, by simp⟩

namespace Accounts

theorem count_eq (h : b.Accounts limit live peak) : b.count = live.length := by
  obtain ⟨es, hes, hperm⟩ := h.contents
  rw [hes.count, hperm.length_eq]

theorem count_le (h : b.Accounts limit live peak) : b.count ≤ b.nodes.size := by
  have hlen := h.slots.length_eq
  simp only [List.length_append, List.length_map, List.length_range] at hlen
  rw [h.count_eq]
  omega

theorem not_hasRoom_iff (h : b.Accounts limit live peak) {granted : Bool} :
    ¬b.HasRoom granted ↔ b.Exhausted granted := by
  obtain ⟨es, hes, hperm⟩ := h.contents
  exact hes.not_hasRoom_iff fun l hl => hperm.length_eq ▸ h.length_le l (h.limit_eq ▸ hl)

theorem elem_eq (h : b.Accounts limit live peak) {n : Nat} {e : α} (hn : (n, e) ∈ live) :
    b.elem n = .ok e := by
  obtain ⟨es, hes, hperm⟩ := h.contents
  exact hes.elem_eq (hperm.mem_iff.2 hn)

/-- The arena grows only when every slot is in use, so that it is as large as the largest number of
elements was. -/
theorem insert (h : b.Accounts limit live peak) {granted : Bool} (hroom : b.HasRoom granted)
    (c : α → α → Ordering) (e : α) :
    Yields (b.insert (.always c) granted e) fun out => ∃ n, out.2 = some n ∧
      out.1.Accounts limit ((n, e) :: live) (max peak out.1.count) ∧ n ∉ live.map (·.1) := by
  obtain ⟨es, hes, hperm⟩ := h.contents
  apply (hes.insert_of_tree (P := fun _ _ => True) hroom ?_).mono
  · intro out hout
    obtain ⟨b', node⟩ := out
    obtain ⟨n, es', hnode, hes', hperm', -, hn, hgives, hlimit⟩ := hout
    dsimp only at hes' hgives hlimit ⊢
    have hslots : (((n, e) :: live).map (·.1) ++ b'.free).Perm (List.range b'.nodes.size) :=
      hgives.slots h.slots
    have hcount : b'.count = live.length + 1 := by
      rw [hes'.count, hperm'.length_eq, List.length_cons, hperm.length_eq]
    refine ⟨n, hnode, ⟨⟨es', hes', hperm'.trans (hperm.cons _)⟩, hslots, ?_,
      hlimit.trans h.limit_eq, ?_⟩, fun hc => hn ((hperm.map _).mem_iff.2 hc)⟩
    · have hlen := hslots.length_eq
      have hlen' := h.slots.length_eq
      have hsize := h.size_eq
      simp only [List.length_append, List.length_map, List.length_cons,
        List.length_range] at hlen hlen'
      rcases hgives with ⟨hfree, hsame⟩ | ⟨hfree, -, -, hgrown⟩
      · omega
      · rw [hfree, List.length_nil] at hlen'
        omega
    · intro l hl
      have hlt := count_lt hroom.1 (h.limit_eq.trans hl)
      rwa [h.count_eq] at hlt
  · intro r t k n hf ht _ hnew hn
    apply (Rooted.insert_perm hf ht hnew hn fun _ _ here _ => ⟨c here.elem e, rfl⟩).mono
    intro r' hr'
    obtain ⟨t', k', hf', ht', hperm', htouch⟩ := hr'
    exact ⟨t', k', hf', ht', hperm', htouch, trivial⟩

theorem remove (h : b.Accounts limit live peak) {n : Nat} (hn : n ∈ live.map (·.1)) :
    Yields (b.remove n) fun b' =>
      b'.Accounts limit (live.eraseP fun x => x.1 == n) (max peak b'.count) := by
  obtain ⟨es, hes, hperm⟩ := h.contents
  apply (hes.remove_spec ((hperm.map _).mem_iff.2 hn)).mono
  intro b' hb'
  obtain ⟨hes', hlimit, hfree, hsize⟩ := hb'
  have hfst : (live.eraseP fun x => x.1 == n).map (·.1) = (live.map (·.1)).erase n := by
    rw [List.erase_eq_eraseP', List.eraseP_map]
    rfl
  have hrest : (es.eraseP fun x => x.1 == n).Perm (live.eraseP fun x => x.1 == n) := by
    apply hperm.eraseP
    apply (List.pairwise_map.1 hes.nodup).imp
    intro x y hne hx hy
    exact hne ((beq_iff_eq.1 hx).trans (beq_iff_eq.1 hy).symm)
  have hslots : ((live.eraseP fun x => x.1 == n).map (·.1) ++ b'.free).Perm
      (List.range b'.nodes.size) := by
    rw [hfst, hfree, hsize]
    apply List.perm_middle.trans
    exact ((List.perm_cons_erase hn).symm.append_right _).trans h.slots
  have hcount : b'.count ≤ b.count := by
    rw [hes'.count, hes.count]
    exact List.eraseP_sublist.length_le
  refine ⟨⟨_, hes', hrest⟩, hslots, ?_, hlimit.trans h.limit_eq, ?_⟩
  · have hle := h.count_le
    have hpeak := h.size_eq
    omega
  · intro l hl
    exact Nat.le_trans List.eraseP_sublist.length_le (h.length_le l hl)

theorem drain (h : b.Accounts limit live peak) :
    Yields b.drain fun out => out.1.Accounts limit [] 0 := by
  obtain ⟨es, hes, -⟩ := h.contents
  apply hes.drain_spec.mono
  intro out hout
  rw [hout.1, h.limit_eq]
  exact accounts_empty limit

theorem isRedBlack (h : b.Accounts limit live peak) :
    ∃ nodes height, b.rooted.IsRedBlack nodes ∧ b.nodes.height b.root = .ok height ∧
      2 ^ height ≤ (b.count + 1) ^ 2 ∧ b.nodes.treeSize b.root = .ok b.count ∧
      nodes.length = b.count ∧ nodes.Perm (live.map (·.1)) := by
  obtain ⟨es, hes, hperm⟩ := h.contents
  obtain ⟨t, k, hf, ht, -, hfst⟩ := hes.map_fst
  have hroot : b.root = t.root? := hf.around
  have hdepth : t.height ≤ b.nodes.size + 1 :=
    Nat.le_trans t.height_le_length (Nat.le_of_lt hf.length_lt)
  have hlen : t.inorder.length = b.count := by
    rw [hes.count, ← hfst, List.length_map]
  refine ⟨t.inorder, t.height, ⟨t, k, hf, ht, rfl⟩, ?_, ?_, ?_, hlen, hfst ▸ hperm.map _⟩
  · rw [hroot]
    exact heightBelow_eq hf.below hdepth
  · rw [Nat.pow_two, ← hlen]
    exact ht.two_pow_height_le
  · rw [hroot, ← hlen]
    exact sizeBelow_eq hf.below hdepth

end Accounts

theorem Issued.accounts (h : Issued limit b live peak) : b.Accounts limit live peak := by
  induction h with
  | start => exact accounts_empty limit
  | insert c granted e _ hins ih =>
    obtain ⟨n, hnode, hb', -⟩ := (ih.insert (hasRoom_of_insert hins) c e).of_eq hins
    cases hnode
    exact hb'
  | refuse c granted e _ hins ih =>
    obtain ⟨rfl, -⟩ := insert_eq_refused.1 hins
    exact ih
  | remove _ hn hrem ih => exact (ih.remove hn).of_eq hrem
  | drain _ hdrain ih => exact ih.drain.of_eq hdrain

/-- No comparison, however inconsistent, harms the tree, loses a slot, or lets a node that is in
use change its element or be given out again. -/
theorem Issued.keeps_slots (h : Issued limit b live peak) :
    (∃ nodes height, b.rooted.IsRedBlack nodes ∧ b.nodes.height b.root = .ok height ∧
      2 ^ height ≤ (b.count + 1) ^ 2 ∧ b.nodes.treeSize b.root = .ok b.count ∧
      nodes.length = b.count ∧ nodes.Perm (live.map (·.1)) ∧
      (nodes ++ b.free).Perm (List.range b.nodes.size)) ∧
    b.nodes.size = peak ∧ b.limit = limit ∧ (∀ n e, (n, e) ∈ live → b.elem n = .ok e) ∧
    (∀ c granted e b', b.insert (.always c) granted e = .ok (b', none) ↔
      b' = b ∧ b.Exhausted granted) ∧
    (∀ c granted e, ¬b.Exhausted granted →
      ∃ b' n, b.insert (.always c) granted e = .ok (b', some n) ∧ n ∉ live.map (·.1)) ∧
    (∀ n ∈ live.map (·.1), ∃ b', b.remove n = .ok b') ∧
    ∃ b' gone, b.drain = .ok (b', gone) := by
  have hb := h.accounts
  obtain ⟨nodes, height, htree, hheight, hpow, hsize, hlen, hperm⟩ := hb.isRedBlack
  refine ⟨⟨nodes, height, htree, hheight, hpow, hsize, hlen, hperm, ?_⟩, hb.size_eq,
    hb.limit_eq, fun n e hn => hb.elem_eq hn, ?_, ?_, ?_, ?_⟩
  · exact (hperm.append_right _).trans hb.slots
  · intro c granted e b'
    rw [insert_eq_refused, hb.not_hasRoom_iff]
  · intro c granted e hexhausted
    rw [← hb.not_hasRoom_iff, not_not] at hexhausted
    obtain ⟨⟨b', node⟩, hins, n, rfl, -, hn⟩ := hb.insert hexhausted c e
    exact ⟨b', n, hins, hn⟩
  · intro n hn
    obtain ⟨b', hrem, -⟩ := hb.remove hn
    exact ⟨b', hrem⟩
  · obtain ⟨⟨b', gone⟩, hdrain, -⟩ := hb.drain
    exact ⟨b', gone, hdrain⟩

/-- Three insertions, of which the second calls everything greater and the third calls everything
less, and a removal after the second, whose slot the third takes. -/
theorem Issued.keeps_slots_of_reuse :
    ∃ b : Bag Nat, Issued (some 2) b [(0, 8), (1, 3)] 2 ∧ b.nodes.size = 2 ∧
      b.elem 0 = .ok 8 ∧ b.insert (.always compare) true 1 = .ok (b, none) := by
  have hone : Issued (some 2) _ [(0, 5)] _ := .insert compare true 5 .start rfl
  have htwo : Issued (some 2) _ [(1, 3), (0, 5)] _ := .insert (fun _ _ => .gt) true 3 hone rfl
  have hrest : Issued (some 2) _ [(1, 3)] _ := .remove (n := 0) htwo (by decide) rfl
  have h : Issued (some 2) _ [(0, 8), (1, 3)] 2 := .insert (fun _ _ => .lt) false 8 hrest rfl
  obtain ⟨-, hsize, -, helem, hfull, -⟩ := Issued.keeps_slots h
  exact ⟨_, h, hsize, helem 0 8 (by simp), (hfull compare true 1 _).2 ⟨rfl, .inl rfl⟩⟩

end Bag

end InstanceTree.RedBlack
