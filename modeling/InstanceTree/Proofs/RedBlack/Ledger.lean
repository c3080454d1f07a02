import InstanceTree.Proofs.RedBlack.Contents

namespace InstanceTree.RedBlack

variable {α : Type}

namespace Comparator

variable {cmp : Comparator α} {c : α → α → Ordering} {S : α → Prop} {es : List (Nat × α)} {e : α}

theorem Sorts.stably_pairwise (hs : cmp.Sorts c S) (he : S e) (hin : ∀ x ∈ es, S x.2)
    (hasc : es.Pairwise fun x y => c x.2 y.2 ≠ .gt) (n : Nat) :
    (stably (fun x => (c x.2 e).isGT) (n, e) es).Pairwise fun x y => c x.2 y.2 ≠ .gt := by
  obtain ⟨xs, ys, rfl, hsplit, hxs, hys⟩ := hs.stably_split he hin hasc n
  rw [hsplit]
  rw [List.pairwise_append] at hasc ⊢
  refine ⟨hasc.1, List.pairwise_cons.2 ⟨?_, hasc.2.1⟩, ?_⟩
  · intro y hy
    exact hs.le_of_gt (hin y (by simp [hy])) he (hys y hy)
  · intro x hx y hy
    rcases List.mem_cons.1 hy with rfl | hy
    · exact hxs x hx
    · exact hasc.2.2 x hx y hy

end Comparator

namespace Bag

variable {c : α → α → Ordering} {limit : Option Nat} {b : Bag α} {es : List (Nat × α)}

/-- The bags that insertions, removals and draining lead to, each with the list that it stands
for: an element that is inserted goes right after the last one that is not greater, a refused one
goes nowhere, a removal deletes the place of its node, and draining deletes all. -/
inductive Reached (c : α → α → Ordering) (limit : Option Nat) : Bag α → List (Nat × α) → Prop
  | start : Reached c limit (empty limit) []
  | insert {b b' : Bag α} {es : List (Nat × α)} {n : Nat} (granted : Bool) (e : α) :
      Reached c limit b es → b.insert (.always c) granted e = .ok (b', some n) →
      Reached c limit b' (stably (fun x => (c x.2 e).isGT) (n, e) es)
  | refuse {b b' : Bag α} {es : List (Nat × α)} (granted : Bool) (e : α) :
      Reached c limit b es → b.insert (.always c) granted e = .ok (b', none) →
      Reached c limit b' es
  | remove {b b' : Bag α} {es : List (Nat × α)} {n : Nat} : Reached c limit b es →
      n ∈ es.map (·.1) → b.remove n = .ok b' →
      Reached c limit b' (es.eraseP fun x => x.1 == n)
  | drain {b b' : Bag α} {es : List (Nat × α)} {gone : List α} : Reached c limit b es →
      b.drain = .ok (b', gone) → Reached c limit b' []

/-- What all steps from an empty bag on preserve. -/
structure Sound (c : α → α → Ordering) (limit : Option Nat) (b : Bag α) (es : List (Nat × α)) :
    Prop where
  contains : b.Contains es
  ascending : es.Pairwise fun x y => c x.2 y.2 ≠ .gt
  limit_eq : b.limit = limit
  length_le : ∀ l, limit = some l → es.length ≤ l

theorem Sound.not_hasRoom_iff (h : b.Sound c limit es) {granted : Bool} :
    ¬b.HasRoom granted ↔ b.Exhausted granted :=
  h.contains.not_hasRoom_iff fun l hl => h.length_le l (h.limit_eq ▸ hl)

theorem Sound.remove (h : b.Sound c limit es) {n : Nat} (hn : n ∈ es.map (·.1)) :
    Yields (b.remove n) fun b' => b'.Sound c limit (es.eraseP fun x => x.1 == n) := by
  apply (h.contains.remove_spec hn).mono
  intro b' hb''
  obtain ⟨hb', hlimit, -⟩ := hb''
  refine ⟨hb', h.ascending.sublist List.eraseP_sublist, hlimit.trans h.limit_eq, ?_⟩
  intro l hl
  exact Nat.le_trans List.eraseP_sublist.length_le (h.length_le l hl)

theorem Sound.drain (h : b.Sound c limit es) :
    Yields b.drain fun out => out.1.Sound c limit [] ∧ out.2.Perm (es.map (·.2)) := by
  apply h.contains.drain_spec.mono
  intro hb' hhb'
  obtain ⟨b', gone⟩ := hb'
  obtain ⟨rfl, hgone⟩ := hhb'
  refine ⟨⟨contains_empty _, .nil, h.limit_eq, ?_⟩, hgone⟩
  simp

variable [Std.TransCmp c]

theorem Sound.insert (h : b.Sound c limit es) {granted : Bool} (hroom : b.HasRoom granted)
    (e : α) :
    Yields (b.insert (.always c) granted e) fun out => ∃ n, out.2 = some n ∧
      out.1.Sound c limit (stably (fun x => (c x.2 e).isGT) (n, e) es) ∧ n ∉ es.map (·.1) := by
  have hs := Comparator.always_sorts c
  refine (h.contains.insert_spec hroom hs trivial (fun _ _ => trivial) h.ascending).mono ?_
  intro out hout
  obtain ⟨n, hnode, hb', hn, hlimit⟩ := hout
  refine ⟨n, hnode, ⟨hb', ?_, hlimit.trans h.limit_eq, ?_⟩, hn⟩
  · exact hs.stably_pairwise trivial (fun _ _ => trivial) h.ascending n
  · intro l hl
    have hcount := count_lt hroom.1 (h.limit_eq.trans hl)
    rwa [(stably_perm _ _ _).length_eq, List.length_cons, ← h.contains.count]

theorem Reached.sound (h : Reached c limit b es) : b.Sound c limit es := by
  induction h with
  | start => exact ⟨contains_empty _, .nil, rfl, by simp⟩
  | insert granted e _ hins ih =>
    obtain ⟨n, hnode, hb', -⟩ := (ih.insert (hasRoom_of_insert hins) e).of_eq hins
    cases hnode
    exact hb'
  | refuse granted e _ hins ih =>
    obtain ⟨rfl, -⟩ := insert_eq_refused.1 hins
    exact ih
  | remove _ hn hrem ih => exact (ih.remove hn).of_eq hrem
  | drain _ hdrain ih => exact (ih.drain.of_eq hdrain).1

/-- A bag refines the list it stands for, after any steps from an empty one. It refuses an element
just when it is exhausted, and is the same bag then. -/
theorem Reached.refines_ledger (h : Reached c limit b es) :
    b.toList = .ok (es.map (·.2)) ∧ b.count = es.length ∧ b.limit = limit ∧
      (∃ blacks, b.check (.always c) = pure blacks) ∧
      (∀ granted e b', b.insert (.always c) granted e = .ok (b', none) ↔
        b' = b ∧ b.Exhausted granted) ∧
      (∀ granted e, ¬b.Exhausted granted →
        ∃ b' n, b.insert (.always c) granted e = .ok (b', some n) ∧ n ∉ es.map (·.1)) ∧
      (∀ n ∈ es.map (·.1), ∃ b', b.remove n = .ok b') ∧
      ∃ b' gone, b.drain = .ok (b', gone) ∧ gone.Perm (es.map (·.2)) := by
  have hb := h.sound
  have hs := Comparator.always_sorts c
  refine ⟨hb.contains.toList_eq, hb.contains.count, hb.limit_eq, ?_, ?_, ?_, ?_, ?_⟩
  · exact hb.contains.check_eq hs (fun _ _ => trivial) hb.ascending
  · intro granted e b'
    rw [insert_eq_refused, hb.not_hasRoom_iff]
  · intro granted e hexhausted
    rw [← hb.not_hasRoom_iff, not_not] at hexhausted
    obtain ⟨⟨b', node⟩, hins, n, rfl, -, hn⟩ := hb.insert hexhausted e
    exact ⟨b', n, hins, hn⟩
  · intro n hn
    obtain ⟨b', hrem, -⟩ := hb.remove hn
    exact ⟨b', hrem⟩
  · obtain ⟨⟨b', gone⟩, hdrain, -, hgone⟩ := hb.drain
    exact ⟨b', gone, hdrain, hgone⟩

/-- Two elements fill a bag with a limit of two, whatever memory is granted. -/
theorem Reached.refines_ledger_of_two :
    ∃ b : Bag Nat, Reached compare (some 2) b [(1, 3), (0, 5)] ∧ b.toList = .ok [3, 5] ∧
      ∀ granted e, b.insert (.always compare) granted e = .ok (b, none) := by
  have h : Reached compare (some 2) _ [(1, 3), (0, 5)] :=
    ((Reached.start (α := Nat)).insert true 5 rfl).insert true 3 rfl
  obtain ⟨hlist, -, -, -, hrefuses, -⟩ := Reached.refines_ledger h
  exact ⟨_, h, hlist, fun granted e => (hrefuses granted e _).2 ⟨rfl, .inl rfl⟩⟩

theorem Reached.exists_of_length [Inhabited α] {n : Nat} (hn : n ≤ handleCount) :
    ∃ (b : Bag α) (es : List (Nat × α)), Reached c none b es ∧ es.length = n := by
  induction n with
  | zero => exact ⟨_, [], .start, rfl⟩
  | succ n ih =>
    obtain ⟨b, es, h, rfl⟩ := ih (Nat.le_of_succ_le hn)
    have hroom : b.HasRoom true := h.sound.contains.hasRoom (by simp [isFull, h.sound.limit_eq]) hn
    obtain ⟨⟨b', node⟩, hins, i, rfl, -, -⟩ := h.sound.insert hroom default
    exact ⟨b', _, h.insert true default hins, by rw [(stably_perm _ _ _).length_eq]; rfl⟩

/-- A bag that has no limit refuses an element too, once every index is given to one. -/
theorem Reached.refused_without_limit : ∃ (b : Bag Nat) (es : List (Nat × Nat)),
    Reached compare none b es ∧ b.limit = none ∧ es.length = handleCount ∧
      ∀ e, b.insert (.always compare) true e = .ok (b, none) := by
  obtain ⟨b, es, h, hlen⟩ := Reached.exists_of_length (α := Nat) (c := compare)
    (Nat.le_refl handleCount)
  have hcount : b.count = handleCount := h.sound.contains.count.trans hlen
  refine ⟨b, es, h, h.sound.limit_eq, hlen, fun e => ?_⟩
  rw [insert_eq_refused, h.sound.not_hasRoom_iff]
  exact ⟨rfl, .inr (.inl hcount)⟩

end Bag

end InstanceTree.RedBlack
