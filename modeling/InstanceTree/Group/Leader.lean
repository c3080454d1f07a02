import InstanceTree.Forest.Edit
import InstanceTree.Group.Index

namespace InstanceTree

/-- How far the index of a group is, as seen from one element. -/
inductive AnchorState where
  | absent
  | singleton
  | materialized (count : Nat)
deriving DecidableEq, Repr

def Anchor.state (a : Anchor) : AnchorState :=
  match a.index with
  | none => .singleton
  | some index => .materialized index.count

namespace Forest

def anchor? (f : Forest) (n : NodeId) : Except Fault (Option Anchor) := do
  return (← f.element n).anchor

def index? (f : Forest) (n : NodeId) : Except Fault (Option Index) := do
  return (← f.anchor? n).bind (·.index)

def anchorState (f : Forest) (n : NodeId) : Except Fault AnchorState := do
  return ((← f.anchor? n).map Anchor.state).getD .absent

def setAnchor (f : Forest) (n : NodeId) (anchor : Option Anchor) : Except Fault Forest :=
  f.update n fun e => { e with anchor := anchor }

def clearAnchor (f : Forest) (n : NodeId) : Except Fault Forest := do
  let anchor ← f.anchor? n
  let f ← f.setAnchor n none
  dropAnchor anchor
  return f

/-- Takes away an anchor that an element has kept from where it stood before; such an anchor has
no index of two members or more. -/
def clearStale (f : Forest) (n : NodeId) : Except Fault Forest := do
  if (← f.index? n).any fun index => 1 < index.count then
    throw .staleIndex
  f.clearAnchor n

/-- Puts an index, or none, into the anchor of an element, if it has an anchor. -/
def setIndex (f : Forest) (n : NodeId) (index : Option Index) : Except Fault Forest :=
  f.update n fun e => { e with anchor := e.anchor.map fun _ => ⟨index⟩ }

def handOver (f : Forest) (source target : NodeId) : Except Fault Forest := do
  let anchor ← f.anchor? source
  let f ← f.setAnchor source none
  f.setAnchor target anchor

/-- Whether an element does not stand behind an instance of the same schema node. -/
def startsRun (f : Forest) (n : NodeId) : Except Fault Bool := do
  let e ← f.element n
  f.bounds e.schema e.prev

def ensureAnchor (ctx : Context) (n : NodeId) : Edit Unit := do
  if (← Edit.look (anchor? · n)).isSome then
    return
  unless ← Edit.look (startsRun · n) do
    Edit.fault .anchorBehindLeader
  unless ctx.indexes do
    Edit.refuse .indexModuleMissing
  Edit.change (setAnchor · n (some {}))

end Forest

end InstanceTree
