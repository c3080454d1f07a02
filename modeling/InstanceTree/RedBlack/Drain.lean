import InstanceTree.RedBlack.Arena

namespace InstanceTree.RedBlack

namespace Arena

variable {α : Type}

/-- A leaf below `i`, reached by going left where possible and right otherwise. -/
def leafBelow (a : Arena α) : Nat → Nat → Except Fault Nat
  | 0, _ => .error .endless
  | fuel + 1, i => do
    let n ← a.node i
    match n.left, n.right with
    | some c, _ => a.leafBelow fuel c
    | none, some c => a.leafBelow fuel c
    | none, none => return i

/-- Takes the link from `parent` to `child` away; a child that does not hang on the left is
taken to hang on the right. -/
def cut (a : Arena α) (parent : Option Nat) (child : Nat) : Except Fault (Arena α) :=
  match parent with
  | none => .ok a
  | some p => do
    let side := if (← a.node p).left = some child then Side.left else Side.right
    a.update p fun n => n.withChild side none

/-- Cuts off one leaf after another, starting below `link` and going on at the parent of each
leaf, and collects the nodes as they come off. -/
def drainFrom (a : Arena α) : Nat → Option Nat → Except Fault (Arena α × List (Nat × Node α))
  | _, none => .ok (a, [])
  | 0, some _ => .error .endless
  | fuel + 1, some i => do
    let leaf ← a.leafBelow (a.size + 1) i
    let parent := (← a.node leaf).parent
    let a ← a.cut parent leaf
    let a ← a.update leaf fun n => { n with parent := none }
    let gone ← a.node leaf
    let (a, rest) ← a.drainFrom fuel parent
    return (a, (leaf, gone) :: rest)

/-- Takes a whole tree apart without rebalancing, leaves first. Every step but the last takes
one parent link away, so there are at most as many steps as nodes and one more. -/
def drain (a : Arena α) (root : Option Nat) : Except Fault (Arena α × List (Nat × Node α)) :=
  a.drainFrom (a.size + 2) root

end Arena

end InstanceTree.RedBlack
