import InstanceTree.RedBlack.Insert

namespace InstanceTree.RedBlack

/-- What a repair after a removal starts from: the paths through `child`, which hangs below
`parent`, may lack a black node. -/
structure Deficit where
  child : Option Nat
  parent : Option Nat
  black : Bool

namespace Rooted

variable {α : Type}

/-- The other child of `p`, which has to exist beside a subtree that lacks a black node. -/
def sibling (t : Rooted α) (p : Nat) (s : Side) : Except Fault Nat := do
  match (← t.node p).child s.opp with
  | some i => return i
  | none => throw .noSibling

def childrenBlack (t : Rooted α) (i : Nat) : Except Fault Bool := do
  if ← t.isRed (← t.node i).left then
    return false
  return !(← t.isRed (← t.node i).right)

/-- Gives the deficient side `s` of `p` a black sibling, by turning a red one upwards. -/
def blackenSibling (t : Rooted α) (p : Nat) (s : Side) : Except Fault (Rooted α × Nat) := do
  let sib ← t.sibling p s
  if (← t.node sib).black then
    return (t, sib)
  let t ← t.setBlack sib true
  let t ← t.setBlack p false
  let t ← t.rotate s p
  return (t, ← t.sibling p s)

def reddenOuter (t : Rooted α) (p : Nat) (s : Side) (sib : Nat) :
    Except Fault (Rooted α × Nat) := do
  if ← t.isRed ((← t.node sib).child s.opp) then
    return (t, sib)
  let t ← t.blacken ((← t.node sib).child s)
  let t ← t.setBlack sib false
  let t ← t.rotate s.opp sib
  return (t, ← t.sibling p s)

def closeDeficit (t : Rooted α) (p : Nat) (s : Side) (sib : Nat) : Except Fault (Rooted α) := do
  let t ← t.setBlack sib (← t.node p).black
  let t ← t.setBlack p true
  let t ← t.blacken ((← t.node sib).child s.opp)
  t.rotate s p

/-- Makes up for a missing black node above `n`, which hangs below `parent`: a red `n` or the
root is blackened, a sibling without red children passes the deficit upwards, and any other
sibling ends it. -/
def settleBlack : Nat → Rooted α → Option Nat → Option Nat → Except Fault (Rooted α)
  | 0, _, _, _ => .error .endless
  | fuel + 1, t, parent, n => do
    if ← t.isRed n then
      return ← t.blacken n
    if n = t.root then
      return ← t.blacken n
    let some p := parent | t.blacken n
    let s ← t.sideOf p n
    let (t, sib) ← t.blackenSibling p s
    if ← t.childrenBlack sib then
      let t ← t.setBlack sib false
      settleBlack fuel t (← t.node p).parent (some p)
    else
      let (t, sib) ← t.reddenOuter p s sib
      let t ← t.closeDeficit p s sib
      t.blacken t.root

/-- Takes a node with at most one child out of the tree: the child moves up. -/
def spliceOut (t : Rooted α) (n : Nat) (child : Option Nat) :
    Except Fault (Rooted α × Deficit) := do
  let parent := (← t.node n).parent
  let t ← t.adopt child parent
  let t ← t.redirect parent n child
  return (t, ⟨child, parent, (← t.node n).black⟩)

/-- Takes a node with the children `l` and `r` out of the tree: the node after it in order
takes over its links and its colour. -/
def swapOut (t : Rooted α) (n l r : Nat) : Except Fault (Rooted α × Deficit) := do
  let succ ← t.arena.extremeFrom .left (t.arena.size + 1) r
  let child := (← t.node succ).right
  let parent := (← t.node succ).parent
  let black := (← t.node succ).black
  let t ← t.adopt child parent
  let t ← t.redirect parent succ child
  let old ← t.node n
  let t ← t.update succ fun node =>
    { node with parent := old.parent, left := some l, right := old.right, black := old.black }
  let t ← t.redirect old.parent n (some succ)
  let t ← t.setParent l (some succ)
  let t ← t.adopt old.right (some succ)
  return (t, ⟨child, if parent = some n then some succ else parent, black⟩)

/-- Removes node `n` and restores the colour rules; `n` keeps its element and its colour but
no link. -/
def remove (t : Rooted α) (n : Nat) : Except Fault (Rooted α) := do
  let node ← t.node n
  let (t, gap) ← match node.left, node.right with
    | some l, some r => t.swapOut n l r
    | some l, none => t.spliceOut n (some l)
    | none, child => t.spliceOut n child
  let t ← if gap.black then
      settleBlack (repairSteps t.arena.size) t gap.parent gap.child
    else pure t
  t.update n Node.unlinked

end Rooted

end InstanceTree.RedBlack
