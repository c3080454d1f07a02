import InstanceTree.RedBlack.Remove
import InstanceTree.RedBlack.Search
import InstanceTree.RedBlack.Drain
import InstanceTree.RedBlack.Check
import InstanceTree.RedBlack.Dump

namespace InstanceTree.RedBlack

/-- A collection kept in order, which owns the arena of its tree. Elements that compare equal
keep the order in which they came. -/
structure Bag (α : Type) where
  nodes : Arena α := #[]
  /-- Indices that are free for reuse, the one released last in front. -/
  free : List Nat := []
  root : Option Nat := none
  count : Nat := 0
  /-- The largest number of elements, if there is one. -/
  limit : Option Nat := none
deriving DecidableEq, Repr

namespace Bag

variable {α : Type}

def empty (limit : Option Nat) : Bag α :=
  { limit := limit }

def isFull (b : Bag α) : Bool :=
  match b.limit with
  | none => false
  | some limit => limit ≤ b.count

def isEmpty (b : Bag α) : Bool :=
  b.count = 0

def rooted (b : Bag α) : Rooted α :=
  ⟨b.nodes, b.root⟩

def elem (b : Bag α) (n : Nat) : Except Fault α := do
  return (← b.nodes.node n).elem

def first (b : Bag α) : Except Fault (Option Nat) :=
  b.nodes.first b.root

def last (b : Bag α) : Except Fault (Option Nat) :=
  b.nodes.last b.root

def next (b : Bag α) (n : Nat) : Except Fault (Option Nat) :=
  b.nodes.next n

def prev (b : Bag α) (n : Nat) : Except Fault (Option Nat) :=
  b.nodes.prev n

def toList (b : Bag α) : Except Fault (List α) :=
  b.nodes.elements b.root

/-- Stores `e` in a red node without links: the index released last, or a new one. Nothing is stored
in a full bag, nor where a new index is needed and they have run out or no memory is granted. -/
def allocate (granted : Bool) (b : Bag α) (e : α) : Except Fault (Bag α × Option Nat) :=
  if b.isFull then
    .ok (b, none)
  else
    match b.free with
    | n :: free => do
      return ({ b with nodes := ← b.nodes.update n fun _ => .detached e, free := free }, some n)
    | [] =>
      if b.nodes.size < handleCount ∧ granted then
        .ok ({ b with nodes := b.nodes.push (.detached e) }, some b.nodes.size)
      else
        .ok (b, none)

/-- Inserts `e` after the elements that compare equal to it and gives its node, or none if `e` is
refused. -/
def insert (cmp : Comparator α) (granted : Bool) (b : Bag α) (e : α) :
    Except Fault (Bag α × Option Nat) := do
  let (b, node) ← b.allocate granted e
  let some n := node | return (b, none)
  let t ← b.rooted.insert cmp n
  return ({ b with nodes := t.arena, root := t.root, count := b.count + 1 }, some n)

/-- Inserts `e` where there is memory enough: gives the new bag and the node, or nothing if `e` is
refused. -/
def insert? (cmp : Comparator α) (b : Bag α) (e : α) : Except Fault (Option (Bag α × Nat)) := do
  let (b, node) ← b.insert cmp true e
  return node.map (b, ·)

def remove (b : Bag α) (n : Nat) : Except Fault (Bag α) := do
  let t ← b.rooted.remove n
  if b.count = 0 then
    throw .countBelowZero
  return { b with nodes := t.arena, root := t.root, count := b.count - 1, free := n :: b.free }

def find [DecidableEq α] (cmp : Comparator α) (b : Bag α) (e : α) : Except Fault (Option Nat) :=
  b.nodes.find cmp b.root e

def drain (b : Bag α) : Except Fault (Bag α × List α) := do
  let (_, gone) ← b.nodes.drain b.root
  return (empty b.limit, gone.map fun entry => entry.2.elem)

/-- Checks the tree of a bag and the number of its elements; gives the black height. -/
def check (cmp : Comparator α) (b : Bag α) : Audit Defect Nat := do
  let blacks ← b.nodes.check cmp b.root
  let counted ← b.nodes.treeSize b.root
  Audit.deny (counted ≠ b.count) (.wrongCount counted b.count)
  return blacks

def dump (b : Bag α) (render : α → String) : Except Fault String :=
  b.nodes.dump render "" b.root

end Bag

end InstanceTree.RedBlack
