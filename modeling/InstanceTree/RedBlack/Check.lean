import InstanceTree.RedBlack.Walk

namespace InstanceTree.RedBlack

inductive Defect where
  | rootHasParent
  | rootIsRed
  | brokenParentLink (s : Side) (parent : Nat)
  | redBelowRed (node : Nat)
  | blackHeights (node left right : Nat)
  | tooHigh (height count : Nat)
  | outOfOrder (before after : Nat)
  | wrongCount (counted expected : Nat)
deriving DecidableEq, Repr

def Defect.message : Defect → String
  | rootHasParent => "Root has parent"
  | rootIsRed => "Root is not black"
  | brokenParentLink s parent =>
    "Broken parent link on " ++ s.describe ++ " child of " ++ toString parent
  | redBelowRed node => "Red node " ++ toString node ++ " has a red child"
  | blackHeights node left right =>
    "Black height mismatch under " ++ toString node ++ ": " ++ toString left ++ " != " ++
      toString right
  | tooHigh height count =>
    "Height " ++ toString height ++ " exceeds 2*log2(" ++ toString count ++ "+1)"
  | outOfOrder before after =>
    "Node order violated between " ++ toString before ++ " and " ++ toString after
  | wrongCount counted expected =>
    "Tree holds " ++ toString counted ++ " nodes, expected " ++ toString expected

/-- A computation that may find a defect, or run into a fault. -/
abbrev Audit (δ α : Type) := ExceptT δ (Except Fault) α

def Audit.deny {δ : Type} (condition : Bool) (defect : δ) : Audit δ Unit :=
  if condition then throw defect else pure ()

namespace Arena

variable {α : Type}

def checkParentLink (a : Arena α) (i : Nat) (n : Node α) (s : Side) : Audit Defect Unit :=
  match n.child s with
  | none => pure ()
  | some c => do
    let below ← a.node c
    Audit.deny (below.parent ≠ some i) (.brokenParentLink s i)

def hasRedChild (a : Arena α) (n : Node α) : Except Fault Bool := do
  if ← a.isRed n.left then
    return true
  a.isRed n.right

/-- The number of black nodes on every path below a link. Correct parent links rule out that
a path meets a node twice, so the size of the arena bounds the depth. -/
def blackHeight (a : Arena α) : Nat → Option Nat → Audit Defect Nat
  | _, none => pure 0
  | 0, some _ => (Except.error Fault.endless : Except Fault Nat)
  | depth + 1, some i => do
    let n ← a.node i
    a.checkParentLink i n .left
    a.checkParentLink i n .right
    unless n.black do
      Audit.deny (← a.hasRedChild n) (.redBelowRed i)
    let l ← a.blackHeight depth n.left
    let r ← a.blackHeight depth n.right
    Audit.deny (l ≠ r) (.blackHeights i l r)
    return if n.black then l + 1 else l

/-- Finds two neighbours out of order among the nodes from `link` on. -/
def checkOrder (a : Arena α) (cmp : Comparator α) :
    Nat → Option Nat → Option Nat → Audit Defect Unit
  | _, _, none => pure ()
  | 0, _, some _ => (Except.error Fault.endless : Except Fault Unit)
  | fuel + 1, before, some i => do
    if let some b := before then
      let sign ← cmp (← a.node b).elem (← a.node i).elem
      Audit.deny (sign = .gt) (.outOfOrder b i)
    a.checkOrder cmp fuel (some i) (← a.next i)

def isTooHigh (height count : Nat) : Bool :=
  Nat.pow 2 height > (count + 1) * (count + 1)

/-- Checks the links, the colours, the height and the order of a tree, and gives its black
height. -/
def check (a : Arena α) (cmp : Comparator α) : Option Nat → Audit Defect Nat
  | none => pure 0
  | some root => do
    let n ← a.node root
    Audit.deny n.parent.isSome .rootHasParent
    Audit.deny (!n.black) .rootIsRed
    let blacks ← a.blackHeight (a.size + 1) (some root)
    let count ← a.treeSize (some root)
    let height ← a.height (some root)
    Audit.deny (isTooHigh height count) (.tooHigh height count)
    a.checkOrder cmp (a.size + 1) none (← a.first (some root))
    return blacks

end Arena

end InstanceTree.RedBlack
