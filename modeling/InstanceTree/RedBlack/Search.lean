import InstanceTree.RedBlack.Walk

namespace InstanceTree.RedBlack

namespace Arena

variable {α : Type} [DecidableEq α]

/-- Looks for exactly `e` among the nodes that follow `link` on a side, as long as their
elements compare equal to `e`. -/
def scan (a : Arena α) (cmp : Comparator α) (e : α) (s : Side) :
    Nat → Option Nat → Except Fault (Option Nat)
  | _, none => .ok none
  | 0, some _ => .error .endless
  | fuel + 1, some i => do
    let here ← a.node i
    if (← cmp here.elem e) ≠ .eq then
      return none
    else if here.elem = e then
      return some i
    else
      a.scan cmp e s fuel (← a.neighbour s i)

/-- Looks for exactly `e` below `i`: the comparison leads to the first node whose element
compares equal to `e`, and the nodes before and after that one are scanned. -/
def seek (a : Arena α) (cmp : Comparator α) (e : α) : Nat → Nat → Except Fault (Option Nat)
  | 0, _ => .error .endless
  | fuel + 1, i => do
    let here ← a.node i
    match ← cmp here.elem e with
    | .gt => match here.left with
      | none => return none
      | some c => a.seek cmp e fuel c
    | .lt => match here.right with
      | none => return none
      | some c => a.seek cmp e fuel c
    | .eq =>
      if here.elem = e then
        return some i
      match ← a.scan cmp e .left (a.size + 1) (← a.prev i) with
      | some found => return some found
      | none => a.scan cmp e .right (a.size + 1) (← a.next i)

def find (a : Arena α) (cmp : Comparator α) (root : Option Nat) (e : α) :
    Except Fault (Option Nat) := do
  let some r := root | return none
  if (← a.node r).elem = e then
    return some r
  a.seek cmp e (a.size + 1) r

end Arena

end InstanceTree.RedBlack
