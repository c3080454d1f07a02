import InstanceTree.Fault

namespace InstanceTree.RedBlack

/-- A node of a binary search tree, linked to its neighbours by their arena indices. -/
structure Node (α : Type) where
  parent : Option Nat
  left : Option Nat
  right : Option Nat
  black : Bool
  elem : α
deriving DecidableEq, Repr

namespace Node

variable {α : Type}

def detached (e : α) : Node α :=
  ⟨none, none, none, false, e⟩

def child (n : Node α) : Side → Option Nat
  | .left => n.left
  | .right => n.right

def withChild (n : Node α) : Side → Option Nat → Node α
  | .left, c => { n with left := c }
  | .right, c => { n with right := c }

def unlinked (n : Node α) : Node α :=
  { n with parent := none, left := none, right := none }

@[simp] theorem child_withChild (n : Node α) (s : Side) (c : Option Nat) :
    (n.withChild s c).child s = c := by
  cases s <;> rfl

@[simp] theorem child_opp_withChild (n : Node α) (s : Side) (c : Option Nat) :
    (n.withChild s c).child s.opp = n.child s.opp := by
  cases s <;> rfl

@[simp] theorem child_withChild_opp (n : Node α) (s : Side) (c : Option Nat) :
    (n.withChild s.opp c).child s = n.child s := by
  cases s <;> rfl

@[simp] theorem elem_withChild (n : Node α) (s : Side) (c : Option Nat) :
    (n.withChild s c).elem = n.elem := by
  cases s <;> rfl

@[simp] theorem parent_withChild (n : Node α) (s : Side) (c : Option Nat) :
    (n.withChild s c).parent = n.parent := by
  cases s <;> rfl

@[simp] theorem black_withChild (n : Node α) (s : Side) (c : Option Nat) :
    (n.withChild s c).black = n.black := by
  cases s <;> rfl

end Node

/-- A store of nodes; a node's index never changes while the node is in use. -/
abbrev Arena (α : Type) := Array (Node α)

namespace Arena

variable {α : Type}

def node (a : Arena α) (i : Nat) : Except Fault (Node α) :=
  if h : i < a.size then .ok a[i] else .error (.outOfRange a.size i)

def update (a : Arena α) (i : Nat) (f : Node α → Node α) : Except Fault (Arena α) :=
  if h : i < a.size then .ok (a.set i (f a[i])) else .error (.outOfRange a.size i)

/-- Whether a link leads to a red node; a missing child counts as black. -/
def isRed (a : Arena α) : Option Nat → Except Fault Bool
  | none => .ok false
  | some i => do return !(← a.node i).black

theorem node_eq_ok {a : Arena α} {i : Nat} {n : Node α} :
    a.node i = .ok n ↔ a[i]? = some n := by
  unfold node
  split <;> simp_all

theorem update_eq_ok {a b : Arena α} {i : Nat} {f : Node α → Node α} :
    a.update i f = .ok b ↔ ∃ n, a[i]? = some n ∧ b = a.setIfInBounds i (f n) := by
  unfold update
  split
  · next h => simp [h, Array.setIfInBounds, eq_comm]
  · next h => simp [h]

end Arena

/-- An arena together with the root of the one tree it is seen as. -/
structure Rooted (α : Type) where
  arena : Arena α
  root : Option Nat
deriving DecidableEq, Repr

namespace Rooted

variable {α : Type}

def node (t : Rooted α) (i : Nat) : Except Fault (Node α) :=
  t.arena.node i

def isRed (t : Rooted α) (link : Option Nat) : Except Fault Bool :=
  t.arena.isRed link

def update (t : Rooted α) (i : Nat) (f : Node α → Node α) : Except Fault (Rooted α) := do
  return { t with arena := ← t.arena.update i f }

def setParent (t : Rooted α) (i : Nat) (link : Option Nat) : Except Fault (Rooted α) :=
  t.update i fun n => { n with parent := link }

def setChild (t : Rooted α) (i : Nat) (s : Side) (link : Option Nat) : Except Fault (Rooted α) :=
  t.update i fun n => n.withChild s link

def setBlack (t : Rooted α) (i : Nat) (black : Bool) : Except Fault (Rooted α) :=
  t.update i fun n => { n with black := black }

def adopt (t : Rooted α) (child parent : Option Nat) : Except Fault (Rooted α) :=
  match child with
  | none => .ok t
  | some c => t.setParent c parent

def blacken (t : Rooted α) : Option Nat → Except Fault (Rooted α)
  | none => .ok t
  | some i => t.setBlack i true

/-- The side on which `child` hangs below `parent`; right unless it hangs on the left. -/
def sideOf (t : Rooted α) (parent : Nat) (child : Option Nat) : Except Fault Side := do
  return if (← t.node parent).left = child then .left else .right

/-- Lets the link from `parent` to `old` lead to `new`; without a parent, `new` becomes the root. -/
def redirect (t : Rooted α) (parent : Option Nat) (old : Nat) (new : Option Nat) :
    Except Fault (Rooted α) :=
  match parent with
  | none => .ok { t with root := new }
  | some p => do t.setChild p (← t.sideOf p (some old)) new

/-- Turns the tree at `n` so that `n` goes down on a side and its child on the other side
takes its place. -/
def rotate (t : Rooted α) (s : Side) (n : Nat) : Except Fault (Rooted α) := do
  let some up := (← t.node n).child s.opp | throw (.nothingToRotate s)
  let inner := (← t.node up).child s
  let t ← t.setChild n s.opp inner
  let t ← t.adopt inner (some n)
  let parent := (← t.node n).parent
  let t ← t.setParent up parent
  let t ← t.redirect parent n (some up)
  let t ← t.setChild up s (some n)
  t.setParent n (some up)

end Rooted

end InstanceTree.RedBlack
