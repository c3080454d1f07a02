import InstanceTree.RedBlack.Side
import InstanceTree.Value.Type

namespace InstanceTree

/-- How many entries of a store can be told apart: handles have 32 bits. -/
def handleCount : Nat := 4294967296

/-- A broken precondition of a caller, after which a computation has no result.
A `Refusal` is the ordinary way to say no; but for a full store, a fault never comes from
well-formed data. -/
inductive Fault where
  /-- An arena or schema of `size` entries was asked for entry `index`. -/
  | outOfRange (size index : Nat)
  /-- A rotation towards a side found no child on the other side. -/
  | nothingToRotate (towards : RedBlack.Side)
  /-- A red node under repair has a red parent without a parent. -/
  | redRoot
  /-- A subtree that lacks a black node has no sibling. -/
  | noSibling
  /-- A count of nodes would fall below zero. -/
  | countBelowZero
  /-- A walk along links does not end. -/
  | endless
  | typesDiffer (a b : ValueType)
  /-- All handles are given to elements. -/
  | storeFull
  | notLive (id : Nat)
  | childlessParent (id : Nat)
  | leafListWithoutValue
  | keyValuesMissing
  | schemasDiffer
  | notSystemOrdered (name : String)
  | alreadyLinked (id : Nat)
  | foreignInstance
  /-- An anchor is asked for by a member that another one precedes. -/
  | anchorBehindLeader
  /-- An element that is not linked has an index of several members. -/
  | staleIndex
  | missingFromIndex (id : Nat)
  | schemaChildless (name : String)
  | schemaDuplicate (name : String)
deriving DecidableEq, Repr

instance exceptDecidableEq {ε α : Type} [DecidableEq ε] [DecidableEq α] :
    DecidableEq (Except ε α)
  | .ok a, .ok b => decidable_of_iff (a = b) (by simp)
  | .error a, .error b => decidable_of_iff (a = b) (by simp)
  | .ok _, .error _ => isFalse (by simp)
  | .error _, .ok _ => isFalse (by simp)

def elementText (id : Nat) : String :=
  "NodeId(" ++ toString id ++ ")"

def quoted (name : String) : String :=
  "\"" ++ name ++ "\""

namespace Fault

def message : Fault → String
  | outOfRange size index =>
    "index out of bounds: the len is " ++ toString size ++ " but the index is " ++ toString index
  | nothingToRotate towards =>
    towards.describe ++ " rotation needs a " ++ towards.opp.describe ++ " child"
  | redRoot => "red parent has a parent"
  | noSibling => "sibling of a black deficit"
  | countBelowZero => "attempt to subtract with overflow"
  | endless => "links form a cycle"
  | typesDiffer a b =>
    "cannot compare values of different types: " ++ a.describe ++ " and " ++ b.describe
  | storeFull =>
    "data tree cannot hold more than " ++ toString (handleCount - 1) ++ " elements"
  | notLive id => elementText id ++ " does not refer to a live element"
  | childlessParent id =>
    elementText id ++ " is a terminal node and cannot have children"
  | leafListWithoutValue => "leaf-list instance without a value"
  | keyValuesMissing => "list instance is missing key values"
  | schemasDiffer => "compared instances of different schema nodes"
  | notSystemOrdered name => "instances of " ++ quoted name ++ " are not ordered by the system"
  | alreadyLinked id => elementText id ++ " is already linked"
  | foreignInstance => "inserted instance does not belong to the group"
  | anchorBehindLeader => "anchor requested on a non-leading instance"
  | staleIndex => "assertion failed: stale.index.as_ref().map_or(true, |i| i.len() <= 1)"
  | missingFromIndex id =>
    elementText id ++ " is a group member but missing from its sorted index"
  | schemaChildless name => "schema node " ++ quoted name ++ " cannot have children"
  | schemaDuplicate name => "duplicate schema node " ++ quoted name

end Fault

end InstanceTree
