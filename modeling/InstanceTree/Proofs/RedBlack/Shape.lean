import Mathlib.Data.List.Perm.Subperm
import InstanceTree.RedBlack.Side

namespace InstanceTree.RedBlack

/-- A binary tree of coloured nodes, which are given by their indices. -/
inductive Shape where
  | leaf
  | node (black : Bool) (left : Shape) (index : Nat) (right : Shape)

namespace Shape

def root? : Shape → Option Nat
  | .leaf => none
  | .node _ _ i _ => some i

def inorder : Shape → List Nat
  | .leaf => []
  | .node _ l i r => l.inorder ++ i :: r.inorder

def order : Side → Shape → List Nat
  | .left, t => t.inorder
  | .right, t => t.inorder.reverse

def join (s : Side) (black : Bool) (i : Nat) (near far : Shape) : Shape :=
  match s with
  | .left => .node black near i far
  | .right => .node black far i near

theorem node_eq_join (s : Side) (b : Bool) (l : Shape) (i : Nat) (r : Shape) :
    ∃ near far, Shape.node b l i r = join s b i near far := by
  cases s with
  | left => exact ⟨l, r, rfl⟩
  | right => exact ⟨r, l, rfl⟩

theorem join_opp (s : Side) (b : Bool) (i : Nat) (x y : Shape) :
    join s.opp b i x y = join s b i y x := by
  cases s <;> rfl

@[simp] theorem root?_node (b : Bool) (l : Shape) (i : Nat) (r : Shape) :
    (node b l i r).root? = some i := rfl

@[simp] theorem root?_join (s : Side) (b : Bool) (i : Nat) (x y : Shape) :
    (join s b i x y).root? = some i := by
  cases s <;> rfl

@[simp] theorem order_leaf (s : Side) : leaf.order s = [] := by
  cases s <;> rfl

@[simp] theorem order_join (s : Side) (b : Bool) (i : Nat) (x y : Shape) :
    (join s b i x y).order s = x.order s ++ i :: y.order s := by
  cases s <;> simp [join, order, inorder]

theorem order_opp (s : Side) (t : Shape) : t.order s.opp = (t.order s).reverse := by
  cases s <;> simp [order]

@[simp] theorem mem_order {s : Side} {t : Shape} {i : Nat} : i ∈ t.order s ↔ i ∈ t.inorder := by
  cases s <;> simp [order]

@[simp] theorem mem_inorder_join {s : Side} {b : Bool} {i j : Nat} {x y : Shape} :
    j ∈ (join s b i x y).inorder ↔ j = i ∨ j ∈ x.inorder ∨ j ∈ y.inorder := by
  cases s <;> simp [join, inorder] <;> tauto

theorem inorder_join_perm (s : Side) (b : Bool) (i : Nat) (x y : Shape) :
    (join s b i x y).inorder.Perm (i :: (x.inorder ++ y.inorder)) := by
  cases s with
  | left => simp [join, inorder]
  | right =>
    simp only [join, inorder]
    exact List.perm_middle.trans (List.perm_append_comm.cons i)

theorem inorder_rotate (s : Side) (b b' : Bool) (n up : Nat) (x inner z : Shape) :
    (join s b' up (join s b n x inner) z).inorder =
      (join s b n x (join s b' up inner z)).inorder := by
  cases s <;> simp [join, inorder]

theorem root?_mem {t : Shape} {i : Nat} (h : t.root? = some i) : i ∈ t.inorder := by
  cases t with
  | leaf => cases h
  | node b l j r =>
    cases h
    simp [inorder]

theorem exists_root {t : Shape} {i : Nat} (h : i ∈ t.inorder) : ∃ j, t.root? = some j := by
  cases t with
  | leaf => cases h
  | node b l j r => exact ⟨j, rfl⟩

theorem root?_eq_none {t : Shape} : t.root? = none ↔ t = leaf := by
  cases t <;> simp [root?]

def height : Shape → Nat
  | .leaf => 0
  | .node _ l _ r => 1 + max l.height r.height

theorem height_le_length (t : Shape) : t.height ≤ t.inorder.length := by
  induction t with
  | leaf => exact Nat.le_refl _
  | node b l i r ihl ihr =>
    simp only [height, inorder, List.length_append, List.length_cons]
    omega

theorem height_join_left (s : Side) (b : Bool) (i : Nat) (x y : Shape) :
    x.height < (join s b i x y).height := by
  cases s <;> simp only [join, height] <;> omega

def blacken : Shape → Shape
  | .leaf => .leaf
  | .node _ l i r => .node true l i r

@[simp] theorem blacken_join (s : Side) (b : Bool) (i : Nat) (x y : Shape) :
    (join s b i x y).blacken = join s true i x y := by
  cases s <;> rfl

end Shape

/-- A step on the way from a node up to the root: the way comes from side `side` of the node
`index`, which has `other` on its other side. -/
structure Turn where
  side : Side
  black : Bool
  index : Nat
  other : Shape

/-- A tree with a hole, as the way from the hole up to the root. -/
abbrev Path := List Turn

namespace Path

def parent : Path → Option Nat
  | [] => none
  | turn :: _ => some turn.index

def fill : Path → Shape → Shape
  | [], t => t
  | turn :: up, t => fill up (Shape.join turn.side turn.black turn.index t turn.other)

def indices : Path → List Nat
  | [] => []
  | turn :: up => turn.index :: turn.other.inorder ++ indices up

def beyond (s : Side) : Path → List Nat
  | [] => []
  | turn :: up =>
    if turn.side = s then beyond s up
    else turn.index :: turn.other.order s.opp ++ beyond s up

theorem fill_append (p q : Path) (t : Shape) : (p ++ q : Path).fill t = q.fill (p.fill t) := by
  induction p generalizing t with
  | nil => rfl
  | cons turn up ih => exact ih _

theorem indices_append (p q : Path) : (p ++ q : Path).indices = p.indices ++ q.indices := by
  induction p with
  | nil => rfl
  | cons turn up ih => simp [indices, ih]

theorem parent_mem {p : Path} {i : Nat} (h : p.parent = some i) : i ∈ p.indices := by
  cases p with
  | nil => cases h
  | cons turn up =>
    cases h
    simp [indices]

theorem order_fill (s : Side) (p : Path) (t : Shape) :
    (p.fill t).order s = (p.beyond s).reverse ++ t.order s ++ p.beyond s.opp := by
  induction p generalizing t with
  | nil => simp [fill, beyond]
  | cons turn up ih =>
    obtain ⟨side, b, i, other⟩ := turn
    simp only [fill, ih, beyond]
    by_cases h : side = s
    · subst h
      simp [(Side.opp_ne side).symm]
    · have hs : side = s.opp := by cases side <;> cases s <;> simp_all
      subst hs
      have hj := Shape.order_join s b i other t
      rw [← Shape.join_opp] at hj
      simp [Side.opp_ne, hj, Shape.order_opp]

theorem inorder_fill (p : Path) (t : Shape) :
    (p.fill t).inorder = (p.beyond .left).reverse ++ t.inorder ++ p.beyond .right :=
  order_fill .left p t

theorem inorder_fill_leaf (p : Path) :
    (p.fill .leaf).inorder = (p.beyond .left).reverse ++ p.beyond .right := by
  rw [inorder_fill, Shape.inorder, List.append_nil]

theorem inorder_fill_perm (p : Path) (t : Shape) :
    (p.fill t).inorder.Perm (t.inorder ++ p.indices) := by
  induction p generalizing t with
  | nil => simp [fill, indices]
  | cons turn up ih =>
    apply (ih _).trans
    apply ((Shape.inorder_join_perm _ _ _ _ _).append_right _).trans
    simp only [indices, List.cons_append, List.append_assoc]
    exact List.perm_middle.symm

theorem length_le_indices (p : Path) : p.length ≤ p.indices.length := by
  induction p with
  | nil => exact Nat.le_refl _
  | cons turn up ih =>
    simp only [indices, List.length_cons, List.length_append]
    omega

theorem inorder_fill_congr (p : Path) {t u : Shape} (h : t.inorder = u.inorder) :
    (p.fill t).inorder = (p.fill u).inorder := by
  rw [inorder_fill, inorder_fill, h]

end Path

end InstanceTree.RedBlack
