import InstanceTree.Proofs.RedBlack.Recognition

namespace InstanceTree.RedBlack

open Arena

variable {α : Type}

namespace Arena

/-- The nodes that the neighbours on a side lead over, from a link to the end. -/
inductive Steps (a : Arena α) (s : Side) : Option Nat → List Nat → Prop
  | done : Steps a s none []
  | step {i : Nat} {link : Option Nat} {nodes : List Nat} : a.neighbour s i = .ok link →
      Steps a s link nodes → Steps a s (some i) (i :: nodes)

end Arena

namespace Rooted

variable {r : Rooted α} {t : Shape} {i j : Nat}

theorem Focus.outermost_eq (h : r.Focus [] t) (s : Side) :
    r.arena.extreme s r.root = .ok (t.order s).head? := by
  have hroot : r.root = t.root? := h.around
  have hlen := h.length_lt
  rw [hroot]
  exact Arena.extreme_eq s h.below (by omega)

theorem Focus.steps (h : r.Focus [] t) (s : Side) {xs ys : List Nat}
    (ht : t.order s.opp = xs ++ ys) : r.arena.Steps s ys.head? ys := by
  induction ys generalizing xs with
  | nil => exact .done
  | cons i ys ih =>
    have hpassed : t.order s.opp = (xs ++ [i]) ++ ys := by simpa using ht
    exact .step (neighbour_eq s h ht) (ih hpassed)

theorem Focus.neighbour_eq_some_iff (h : r.Focus [] t) (s : Side) (hi : i ∈ t.inorder) :
    r.arena.neighbour s i = .ok (some j) ↔ ∃ xs ys, t.order s.opp = xs ++ i :: j :: ys := by
  obtain ⟨xs, ys, hxs⟩ := List.append_of_mem (Shape.mem_order (s := s.opp).2 hi)
  rw [neighbour_eq s h hxs]
  constructor
  · intro hj
    obtain ⟨zs, rfl⟩ := List.head?_eq_some_iff.1 (Except.ok.inj hj)
    exact ⟨xs, zs, hxs⟩
  · intro hys
    obtain ⟨xs', zs, hxs'⟩ := hys
    have hnodup := h.order_nodup s.opp
    rw [hxs, List.nodup_middle, List.nodup_cons, List.mem_append, not_or] at hnodup
    obtain ⟨-, -, rfl⟩ :=
      (List.append_cons_inj_of_notMem hnodup.1.1 hnodup.1.2).1 (hxs.symm.trans hxs')
    rfl

theorem Focus.neighbour_comm (h : r.Focus [] t) (s : Side) (hi : i ∈ t.inorder)
    (hj : j ∈ t.inorder) :
    r.arena.neighbour s i = .ok (some j) ↔ r.arena.neighbour s.opp j = .ok (some i) := by
  rw [h.neighbour_eq_some_iff s hi, h.neighbour_eq_some_iff s.opp hj, Shape.order_opp s.opp]
  constructor
  · intro hadj
    obtain ⟨xs, ys, hxs⟩ := hadj
    exact ⟨ys.reverse, xs.reverse, by simp [hxs]⟩
  · intro hadj
    obtain ⟨xs, ys, hxs⟩ := hadj
    exact ⟨ys.reverse, xs.reverse, by simp [List.reverse_eq_iff.1 hxs]⟩

theorem Focus.neighbour_of_outermost (h : r.Focus [] t) (s : Side)
    (hi : (t.order s).head? = some i) : r.arena.neighbour s i = .ok none := by
  obtain ⟨ys, hys⟩ := List.head?_eq_some_iff.1 hi
  have hlast : t.order s.opp = ys.reverse ++ [i] := by simp [Shape.order_opp, hys]
  exact neighbour_eq s h hlast

end Rooted

namespace Arena

variable {a : Arena α} {root : Option Nat}

/-- In a binary tree of any shape, the successors from the first node on lead over the nodes in
order and come to an end, the predecessors from the last node on lead over them in the reverse
order, and a node is the successor of another just when that one is its predecessor. -/
theorem IsProper.steps_in_order (h : a.IsProper root) :
    ∃ nodes : List Nat, a.Lists root nodes ∧ nodes.Nodup ∧ (∀ i, i ∈ nodes ↔ a.Reaches root i) ∧
      a.first root = .ok nodes.head? ∧ a.Steps .right nodes.head? nodes ∧
      a.last root = .ok nodes.getLast? ∧ a.Steps .left nodes.getLast? nodes.reverse ∧
      a.walk root = .ok nodes ∧
      (∀ i ∈ nodes, ∀ j ∈ nodes, a.next i = .ok (some j) ↔ a.prev j = .ok (some i)) ∧
      (∀ i, a.last root = .ok (some i) → a.next i = .ok none) ∧
      (∀ i, a.first root = .ok (some i) → a.prev i = .ok none) := by
  obtain ⟨t, hf⟩ := Rooted.exists_focus_of_isProper (r := ⟨a, root⟩) h
  have hroot : root = t.root? := hf.around
  have hfirst : a.first root = .ok t.inorder.head? := hf.outermost_eq .left
  have hlast : a.last root = .ok t.inorder.reverse.head? := hf.outermost_eq .right
  have hforth : a.Steps .right t.inorder.head? t.inorder := hf.steps .right (List.nil_append _).symm
  have hback : a.Steps .left t.inorder.reverse.head? t.inorder.reverse :=
    hf.steps .left (List.nil_append _).symm
  have hpairs : ∀ i ∈ t.inorder, ∀ j ∈ t.inorder,
      a.next i = .ok (some j) ↔ a.prev j = .ok (some i) := fun i hi j hj =>
    hf.neighbour_comm .right hi hj
  have hend : ∀ i, a.last root = .ok (some i) → a.next i = .ok none := by
    intro i hi
    rw [hlast] at hi
    exact hf.neighbour_of_outermost .right (Except.ok.inj hi)
  have hstart : ∀ i, a.first root = .ok (some i) → a.prev i = .ok none := by
    intro i hi
    rw [hfirst] at hi
    exact hf.neighbour_of_outermost .left (Except.ok.inj hi)
  rw [List.head?_reverse] at hlast hback
  exact ⟨t.inorder, hroot ▸ hf.below.lists, hf.nodes_disjoint.1,
    fun i => hf.unfolds.reaches_iff.symm, hfirst, hforth, hlast, hback, Rooted.walk_eq hf, hpairs,
    hend, hstart⟩

theorem IsProper.steps_in_order_of_bent_path :
    let a : Arena Nat := #[⟨some 2, none, some 3, false, 0⟩, ⟨some 3, none, none, true, 0⟩,
      ⟨none, some 0, some 4, false, 0⟩, ⟨some 0, some 1, none, false, 0⟩,
      ⟨some 2, none, none, false, 0⟩]
    a.IsProper (some 2) ∧ a.Lists (some 2) [0, 1, 3, 2, 4] ∧
      a.Steps .right (some 0) [0, 1, 3, 2, 4] ∧ a.Steps .left (some 4) [4, 2, 3, 1, 0] ∧
      (a.next 3 = .ok (some 2) ↔ a.prev 2 = .ok (some 3)) := by
  intro a
  have hf : (⟨a, some 2⟩ : Rooted Nat).Focus []
      (.node false (.node false .leaf 0 (.node false (.node true .leaf 1 .leaf) 3 .leaf)) 2
        (.node false .leaf 4 .leaf)) :=
    ⟨rfl, ⟨⟨0, rfl⟩, ⟨⟨0, rfl⟩, trivial, ⟨0, rfl⟩, ⟨⟨0, rfl⟩, trivial, trivial⟩, trivial⟩,
      ⟨0, rfl⟩, trivial, trivial⟩, by decide⟩
  have hlists : a.Lists (some 2) [0, 1, 3, 2, 4] := hf.below.lists
  obtain ⟨nodes, hnodes, -, -, -, hforth, -, hback, -, hpairs, -⟩ := hf.isProper.steps_in_order
  obtain rfl := hnodes.unique hlists
  exact ⟨hf.isProper, hlists, hforth, hback, hpairs 3 (by decide) 2 (by decide)⟩

end Arena

end InstanceTree.RedBlack
