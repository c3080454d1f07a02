import InstanceTree.Proofs.RedBlack.Draining
import InstanceTree.Proofs.RedBlack.Recognition

namespace InstanceTree.RedBlack

open Arena

variable {α : Type}

namespace Arena

/-- The nodes below a link, those below the left link of a node first, then those below its right
link, then the node. -/
inductive PostLists (a : Arena α) : Option Nat → List Nat → Prop
  | done : PostLists a none []
  | node {i : Nat} {n : Node α} {l r : List Nat} : a[i]? = some n → PostLists a n.left l →
      PostLists a n.right r → PostLists a (some i) (l ++ r ++ [i])

variable {a : Arena α} {p : Option Nat} {t : Shape}

theorem PostLists.unique {link : Option Nat} {l l' : List Nat} (h : a.PostLists link l)
    (h' : a.PostLists link l') : l = l' := by
  induction h generalizing l' with
  | done =>
    cases h'
    rfl
  | node hn _ _ ihl ihr =>
    cases h' with
    | node hn' hl hr =>
      cases hn.symm.trans hn'
      rw [ihl hl, ihr hr]

theorem Holds.postLists (h : a.Holds p t) : a.PostLists t.root? t.postorder := by
  induction t generalizing p with
  | leaf => exact .done
  | node b l i r ihl ihr =>
    obtain ⟨⟨e, he⟩, hl, hr⟩ := h
    exact .node he (ihl hl) (ihr hr)

theorem visits_forall {nodes : List Nat} (h : ∀ i ∈ nodes, i < a.size) :
    List.Forall₂ (fun i seen => ∃ n : Node α, a[i]? = some n ∧ seen = (i, n.unlinked))
      nodes (a.visits nodes) := by
  induction nodes with
  | nil => exact .nil
  | cons i nodes ih =>
    obtain ⟨hi, hnodes⟩ := List.forall_mem_cons.1 h
    have hn : a[i]? = some a[i] := Array.getElem?_eq_getElem hi
    rw [visits_cons hn]
    exact .cons ⟨_, hn, rfl⟩ (ih hnodes)

/-- A binary tree of any shape and any colours is taken apart in post-order: every node of it is
visited once, with its links already gone, and nothing else changes. -/
theorem IsProper.drains_in_postorder {root : Option Nat} (h : a.IsProper root) :
    ∃ (nodes : List Nat) (b : Arena α) (gone : List (Nat × Node α)),
      a.drain root = .ok (b, gone) ∧
      a.PostLists root nodes ∧ nodes.Nodup ∧ (∀ i, i ∈ nodes ↔ a.Reaches root i) ∧
      List.Forall₂ (fun i seen => ∃ n : Node α, a[i]? = some n ∧ seen = (i, n.unlinked))
        nodes gone ∧
      b.size = a.size ∧
      ∀ i : Nat, b[i]? = a[i]?.map fun n => if i ∈ nodes then n.unlinked else n := by
  obtain ⟨t, hu⟩ := h.unfolds
  obtain ⟨hf, -⟩ := hu.focus_of_oneSided h.oneSided
  have hroot : root = t.root? := hu.around
  have hmem : ∀ i, i ∈ t.postorder ↔ i ∈ t.inorder := fun i => t.postorder_perm.mem_iff
  have hnodup : t.postorder.Nodup := t.postorder_perm.nodup_iff.2 hf.nodes_disjoint.1
  have hlists : a.PostLists root t.postorder := hroot ▸ hu.below.postLists
  have hlt : ∀ i ∈ t.postorder, i < a.size := fun i hi => hu.below.lt_size ((hmem i).1 hi)
  exact ⟨t.postorder, a.unlinkAll t.postorder, a.visits t.postorder, Rooted.drain_eq hf, hlists,
    hnodup, fun i => (hmem i).trans hu.reaches_iff.symm, visits_forall hlt, size_retouch _ _,
    getElem?_retouch _ _⟩

theorem IsProper.drains_in_postorder_of_red_root :
    let a : Arena Nat := #[⟨some 3, none, none, false, 7⟩, ⟨none, some 3, some 2, false, 5⟩,
      ⟨some 1, none, none, true, 1⟩, ⟨some 1, none, some 0, false, 9⟩,
      ⟨some 1, some 4, none, true, 2⟩]
    a.IsProper (some 1) ∧ ∃ (b : Arena Nat) (gone : List (Nat × Node Nat)),
      a.drain (some 1) = .ok (b, gone) ∧ gone.map (·.1) = [0, 3, 2, 1] ∧ b[4]? = a[4]? := by
  intro a
  have hf : (⟨a, some 1⟩ : Rooted Nat).Focus []
      (.node false (.node false .leaf 3 (.node false .leaf 0 .leaf)) 1
        (.node true .leaf 2 .leaf)) :=
    ⟨rfl, ⟨⟨5, rfl⟩, ⟨⟨9, rfl⟩, trivial, ⟨7, rfl⟩, trivial, trivial⟩, ⟨1, rfl⟩, trivial, trivial⟩,
      by decide⟩
  obtain ⟨nodes, b, gone, hdrain, hlists, -, -, hvisits, -, hafter⟩ :=
    hf.isProper.drains_in_postorder
  have hnodes : nodes = [0, 3, 2, 1] := hlists.unique hf.below.postLists
  have hgone : nodes = gone.map (·.1) := by
    rw [← List.forall₂_eq_eq_eq, List.forall₂_map_right_iff]
    apply hvisits.imp
    intro i seen hseen
    obtain ⟨n, -, rfl⟩ := hseen
    rfl
  exact ⟨hf.isProper, b, gone, hdrain, hgone.symm.trans hnodes, by simp [hafter, hnodes]⟩

end Arena

end InstanceTree.RedBlack
