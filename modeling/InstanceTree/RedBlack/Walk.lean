import InstanceTree.RedBlack.Arena

namespace InstanceTree.RedBlack

/-- A three-way comparison that may itself meet a fault. -/
abbrev Comparator (α : Type) := α → α → Except Fault Ordering

namespace Arena

variable {α : Type}

def extremeFrom (a : Arena α) (s : Side) : Nat → Nat → Except Fault Nat
  | 0, _ => .error .endless
  | fuel + 1, i => do
    match (← a.node i).child s with
    | none => return i
    | some c => a.extremeFrom s fuel c

/-- The outermost node of the tree at `root` on a side. A walk of more steps than there are
nodes never ends, so the size of the arena bounds it. -/
def extreme (a : Arena α) (s : Side) : Option Nat → Except Fault (Option Nat)
  | none => .ok none
  | some i => some <$> a.extremeFrom s (a.size + 1) i

def climb (a : Arena α) (s : Side) : Nat → Nat → Except Fault (Option Nat)
  | 0, _ => .error .endless
  | fuel + 1, i => do
    match (← a.node i).parent with
    | none => return none
    | some p => if (← a.node p).child s = some i then a.climb s fuel p else return some p

def neighbour (a : Arena α) (s : Side) (i : Nat) : Except Fault (Option Nat) := do
  match (← a.node i).child s with
  | some c => a.extreme s.opp (some c)
  | none => a.climb s (a.size + 1) i

def first (a : Arena α) (root : Option Nat) : Except Fault (Option Nat) :=
  a.extreme .left root

def last (a : Arena α) (root : Option Nat) : Except Fault (Option Nat) :=
  a.extreme .right root

def next (a : Arena α) (i : Nat) : Except Fault (Option Nat) :=
  a.neighbour .right i

def prev (a : Arena α) (i : Nat) : Except Fault (Option Nat) :=
  a.neighbour .left i

def walkFrom (a : Arena α) : Nat → Option Nat → Except Fault (List Nat)
  | _, none => .ok []
  | 0, some _ => .error .endless
  | fuel + 1, some i => do return i :: (← a.walkFrom fuel (← a.next i))

def walk (a : Arena α) (root : Option Nat) : Except Fault (List Nat) := do
  a.walkFrom (a.size + 1) (← a.first root)

def elements (a : Arena α) (root : Option Nat) : Except Fault (List α) := do
  (← a.walk root).mapM fun i => do return (← a.node i).elem

def sizeBelow (a : Arena α) : Nat → Option Nat → Except Fault Nat
  | _, none => .ok 0
  | 0, some _ => .error .endless
  | depth + 1, some i => do
    let n ← a.node i
    return 1 + (← a.sizeBelow depth n.left) + (← a.sizeBelow depth n.right)

def treeSize (a : Arena α) (root : Option Nat) : Except Fault Nat :=
  a.sizeBelow (a.size + 1) root

def heightBelow (a : Arena α) : Nat → Option Nat → Except Fault Nat
  | _, none => .ok 0
  | 0, some _ => .error .endless
  | depth + 1, some i => do
    let n ← a.node i
    return 1 + max (← a.heightBelow depth n.left) (← a.heightBelow depth n.right)

def height (a : Arena α) (root : Option Nat) : Except Fault Nat :=
  a.heightBelow (a.size + 1) root

end Arena

end InstanceTree.RedBlack
