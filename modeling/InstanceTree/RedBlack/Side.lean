namespace InstanceTree.RedBlack

/-- The two sides of a binary tree: smaller elements lie left, greater ones right. -/
inductive Side where
  | left
  | right
deriving DecidableEq, Repr

namespace Side

def opp : Side → Side
  | .left => .right
  | .right => .left

@[simp] theorem opp_left : Side.left.opp = .right := rfl

@[simp] theorem opp_right : Side.right.opp = .left := rfl

@[simp] theorem opp_opp (s : Side) : s.opp.opp = s := by
  cases s <;> rfl

theorem opp_ne (s : Side) : s.opp ≠ s := by
  cases s <;> decide

def describe : Side → String
  | .left => "left"
  | .right => "right"

end Side

end InstanceTree.RedBlack
