import InstanceTree.Context.Basic
import InstanceTree.Forest.Basic
import InstanceTree.Value.Order

namespace InstanceTree.Forest

def schemaNode (ctx : Context) (f : Forest) (n : NodeId) : Except Fault SchemaNode := do
  ctx.schema.get (← f.schemaOf n)

def isSorted (ctx : Context) (f : Forest) (n : NodeId) : Except Fault Bool := do
  return (← f.schemaNode ctx n).sortKind?.isSome

/-- The values of the first instances of some leaves below `n`, as far as there are any. -/
def valuesBelow (f : Forest) (n : NodeId) : List SchemaId → Except Fault (List Value)
  | [] => .ok []
  | schema :: rest => do
    let value ← match ← f.runStart (some n) schema with
      | none => pure none
      | some c => f.value? c
    return value.toList ++ (← f.valuesBelow n rest)

def keyRow (ctx : Context) (f : Forest) (n : NodeId) : Except Fault (List Value) := do
  f.valuesBelow n (← f.schemaNode ctx n).keys

/-- Compares the first `count` values of two rows; the first difference decides. -/
def compareRows : Nat → List Value → List Value → Except Fault Ordering
  | 0, _, _ => .ok .eq
  | count + 1, x :: xs, y :: ys => do
    match ← x.compare y with
    | .eq => compareRows count xs ys
    | sign => return sign
  | _ + 1, _, _ => .error .keyValuesMissing

def compareBy (ctx : Context) (f : Forest) : SortKind → NodeId → NodeId → Except Fault Ordering
  | .leafList, a, b => do
    match ← f.value? a, ← f.value? b with
    | some x, some y => x.compare y
    | _, _ => throw .leafListWithoutValue
  | .list, a, b => do
    let count := (← f.schemaNode ctx a).keys.length
    compareRows count (← f.keyRow ctx a) (← f.keyRow ctx b)

def compare (ctx : Context) (f : Forest) (a b : NodeId) : Except Fault Ordering := do
  if (← f.schemaOf a) ≠ (← f.schemaOf b) then
    throw .schemasDiffer
  let node ← f.schemaNode ctx a
  match node.sortKind? with
  | none => throw (.notSystemOrdered node.name)
  | some kind => f.compareBy ctx kind a b

end InstanceTree.Forest
