import InstanceTree.RedBlack.Walk

namespace InstanceTree.RedBlack

namespace Rooted

variable {α : Type}

/-- Where a new node will hang: below no node, or on a side of one. -/
abbrev Place := Option (Nat × Side)

/-- Searches downwards for the place of `e`: left of a greater element, otherwise right, so
that an element goes after those that compare equal to it. -/
def descend (cmp : Comparator α) (a : Arena α) (n : Nat) :
    Nat → Place → Option Nat → Except Fault Place
  | _, place, none => .ok place
  | 0, _, some _ => .error .endless
  | fuel + 1, _, some i => do
    let here ← a.node i
    let side := match ← cmp here.elem (← a.node n).elem with
      | .gt => Side.left
      | _ => Side.right
    descend cmp a n fuel (some (i, side)) (here.child side)

/-- Restores the colour rules upwards from a red node `n` whose parent may be red too:
a red uncle passes the violation on to the grandparent, otherwise rotations end it. -/
def settleRed : Nat → Rooted α → Nat → Except Fault (Rooted α)
  | 0, _, _ => .error .endless
  | fuel + 1, t, n => do
    let some parent := (← t.node n).parent | t.blacken t.root
    if (← t.node parent).black then
      t.blacken t.root
    else
      let some grand := (← t.node parent).parent | throw .redRoot
      let side ← t.sideOf grand (some parent)
      let uncle := (← t.node grand).child side.opp
      if ← t.isRed uncle then
        let t ← t.blacken uncle
        let t ← t.setBlack parent true
        let t ← t.setBlack grand false
        settleRed fuel t grand
      else
        let inner := (← t.node parent).child side.opp = some n
        let t ← if inner then t.rotate side parent else pure t
        let (parent, n) := if inner then (n, parent) else (parent, n)
        let t ← t.setBlack parent true
        let t ← t.setBlack grand false
        let t ← t.rotate side.opp grand
        settleRed fuel t n

/-- Steps that a repair of the colour rules may take in an arena of `size` nodes. A tree needs
no more than its height; links that form no tree may need more before they settle. -/
def repairSteps (size : Nat) : Nat :=
  (size + 2) * (size + 2) * (size + 2)

def attach (t : Rooted α) (place : Place) (n : Nat) : Except Fault (Rooted α) := do
  let t ← t.update n fun node =>
    { node with parent := place.map (·.1), left := none, right := none, black := false }
  match place with
  | none => return { t with root := some n }
  | some (p, side) => t.setChild p side (some n)

def insert (cmp : Comparator α) (t : Rooted α) (n : Nat) : Except Fault (Rooted α) := do
  let place ← descend cmp t.arena n (t.arena.size + 1) none t.root
  let t ← t.attach place n
  settleRed (repairSteps t.arena.size) t n

end Rooted

end InstanceTree.RedBlack
