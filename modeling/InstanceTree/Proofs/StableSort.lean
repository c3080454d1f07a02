import InstanceTree.Proofs.Group.Joining

namespace InstanceTree

variable {α : Type} {le : α → α → Bool} {a x : α} {l xs ys : List α}

def putBehind (le : α → α → Bool) (x : α) : List α → List α
  | [] => [x]
  | a :: l => if le a x then a :: putBehind le x l else x :: a :: l

theorem putBehind_append_left (h : ∀ a ∈ xs, le a x = true) :
    putBehind le x (xs ++ ys) = xs ++ putBehind le x ys := by
  induction xs with
  | nil => rfl
  | cons a xs ih =>
    rw [List.cons_append, putBehind, if_pos (h a (by simp)), ih fun b hb => h b (by simp [hb]),
      List.cons_append]

theorem putBehind_append_right (h : ∀ a ∈ ys, le a x = false) :
    putBehind le x (xs ++ ys) = putBehind le x xs ++ ys := by
  induction xs with
  | nil =>
    cases ys with
    | nil => rfl
    | cons a ys => simp [putBehind, h a (by simp)]
  | cons a xs ih =>
    rw [List.cons_append, putBehind, putBehind, ih]
    split <;> rfl

theorem putBehind_append (hx : ∀ a ∈ xs, le a x = true) (hy : ∀ a ∈ ys, le a x = false) :
    putBehind le x (xs ++ ys) = xs ++ x :: ys := by
  rw [putBehind_append_right hy]
  have hself : putBehind le x (xs ++ []) = xs ++ putBehind le x [] := putBehind_append_left hx
  rw [List.append_nil] at hself
  rw [hself, putBehind, List.append_assoc]
  rfl

theorem mem_putBehind : a ∈ putBehind le x l ↔ a = x ∨ a ∈ l := by
  induction l with
  | nil => simp [putBehind]
  | cons b l ih =>
    rw [putBehind]
    split
    · simp only [List.mem_cons, ih]
      tauto
    · simp

theorem length_putBehind : (putBehind le x l).length = l.length + 1 := by
  induction l with
  | nil => rfl
  | cons b l ih =>
    rw [putBehind]
    split
    · rw [List.length_cons, ih, List.length_cons]
    · rfl

/-- A stable sort puts the last item behind those that it may follow. -/
theorem mergeSort_concat (htrans : ∀ a b c, le a b = true → le b c = true → le a c = true)
    (htotal : ∀ a b, (le a b || le b a) = true) (l : List α) (x : α) :
    (l ++ [x]).mergeSort le = putBehind le x (l.mergeSort le) := by
  induction l with
  | nil => simp [putBehind]
  | cons a l ih =>
    obtain ⟨xs, ys, hsort, hsplit, hxs⟩ := List.mergeSort_cons htrans htotal a (l ++ [x])
    obtain ⟨us, vs, hsort', hsplit', hus⟩ := List.mergeSort_cons htrans htotal a l
    have hys : ∀ b ∈ ys, le a b = true := by
      have hsorted := List.pairwise_mergeSort htrans htotal (a :: (l ++ [x]))
      rw [hsort, List.pairwise_append, List.pairwise_cons] at hsorted
      exact hsorted.2.1.1
    have hvs : ∀ b ∈ vs, le a b = true := by
      have hsorted := List.pairwise_mergeSort htrans htotal (a :: l)
      rw [hsort', List.pairwise_append, List.pairwise_cons] at hsorted
      exact hsorted.2.1.1
    have hless : ∀ {b}, (!le a b) = true → le a b ≠ true := by simp
    have hys' : ∀ b ∈ ys, ¬le a b ≠ true := fun b hb => not_not.2 (hys b hb)
    have hparts := hsplit.symm.trans (ih.trans (by rw [hsplit']))
    rw [List.cons_append, hsort, hsort']
    by_cases hax : le a x = true
    · -- the last item stays behind the first one
      have hus' : ∀ b ∈ us, le b x = true := by
        intro b hb
        have hba := htotal b a
        rw [Bool.or_eq_true, or_iff_left (hless (hus b hb))] at hba
        exact htrans b a x hba hax
      rw [putBehind_append_left hus'] at hparts ⊢
      obtain ⟨rfl, rfl⟩ := append_inj_of_forall hparts (fun b hb => hless (hxs b hb)) hys'
        (fun b hb => hless (hus b hb)) fun b hb => by
          rcases mem_putBehind.1 hb with rfl | hb
          · exact not_not.2 hax
          · exact not_not.2 (hvs b hb)
      rw [putBehind, if_pos hax]
    · have hvs' : ∀ b ∈ a :: vs, le b x = false := by
        intro b hb
        rw [Bool.eq_false_iff]
        intro hbx
        rcases List.mem_cons.1 hb with rfl | hb
        · exact hax hbx
        · exact hax (htrans a b x (hvs b hb) hbx)
      rw [putBehind_append_right fun b hb => hvs' b (List.mem_cons_of_mem a hb)] at hparts
      rw [putBehind_append_right hvs']
      obtain ⟨rfl, rfl⟩ := append_inj_of_forall hparts (fun b hb => hless (hxs b hb)) hys'
        (fun b hb => by
          rcases mem_putBehind.1 hb with rfl | hb
          · exact hax
          · exact hless (hus b hb))
        fun b hb => not_not.2 (hvs b hb)
      rfl

end InstanceTree
