import InstanceTree.Group.Order

namespace InstanceTree

inductive IndexDefect where
  | tree (defect : RedBlack.Defect)
  /-- A member stands elsewhere among the siblings; `shape` is a drawing of the index. -/
  | outOfPlace (member : NodeId) (shape : String)
  | missing (sibling : NodeId)
deriving DecidableEq, Repr

def IndexDefect.message : IndexDefect → String
  | tree defect => defect.message
  | outOfPlace member shape =>
    "index member " ++ elementText member ++ " out of sibling order\n" ++ shape
  | missing sibling => "sibling " ++ elementText sibling ++ " missing from the index"

namespace Index

def empty (kind : SortKind) (limit : Option Nat) : Index :=
  ⟨kind, RedBlack.Bag.empty limit⟩

def count (i : Index) : Nat :=
  i.bag.count

def members (i : Index) : Except Fault (List NodeId) :=
  i.bag.toList

/-- Inserts a member and gives its node, or nothing if the index is full. -/
def insert? (ctx : Context) (f : Forest) (i : Index) (e : NodeId) :
    Except Fault (Option (Index × Nat)) := do
  return (← i.bag.insert? (f.compareBy ctx i.kind) e).map fun entry =>
    ({ i with bag := entry.1 }, entry.2)

def predecessor? (i : Index) (node : Nat) : Except Fault (Option NodeId) := do
  match ← i.bag.prev node with
  | none => return none
  | some p => some <$> i.bag.elem p

def remove (ctx : Context) (f : Forest) (i : Index) (e : NodeId) : Except Fault Index := do
  match ← i.bag.find (f.compareBy ctx i.kind) e with
  | none => throw (.missingFromIndex e)
  | some node => return { i with bag := ← i.bag.remove node }

/-- Inserts a sibling and those after it, as far as they are instances of `schema`; gives
nothing if the index gets full. -/
def fill? (ctx : Context) (f : Forest) (schema : SchemaId) :
    Nat → Index → Option NodeId → Except Fault (Option Index)
  | _, i, none => .ok (some i)
  | 0, _, some _ => .error .endless
  | fuel + 1, i, some e => do
    if (← f.schemaOf e) ≠ schema then
      return some i
    let some (i, _) ← i.insert? ctx f e | return none
    fill? ctx f schema fuel i (← f.element e).next

def ofGroup? (ctx : Context) (f : Forest) (kind : SortKind) (leader : NodeId) :
    Except Fault (Option Index) := do
  let schema ← f.schemaOf leader
  fill? ctx f schema f.steps (empty kind ctx.options.indexLimit) (some leader)

/-- Compares members with the chain of siblings from `sibling` on, and gives what is left of
the chain. -/
def checkSiblings (f : Forest) (i : Index) :
    List NodeId → Option NodeId → RedBlack.Audit IndexDefect (Option NodeId)
  | [], sibling => pure sibling
  | member :: rest, sibling => do
    if sibling = some member then
      checkSiblings f i rest (← f.element member).next
    else
      throw (.outOfPlace member (← i.bag.dump elementText))

/-- Checks the tree of an index, and that its members are the siblings that start with
`leader`, in the same order; gives the black height. -/
def check (ctx : Context) (f : Forest) (i : Index) (leader : NodeId) :
    RedBlack.Audit IndexDefect Nat := do
  let blacks ← ExceptT.adapt IndexDefect.tree (i.bag.check (f.compareBy ctx i.kind))
  let schema ← f.schemaOf leader
  let left ← i.checkSiblings f (← i.members) (some leader)
  if let some s := left then
    RedBlack.Audit.deny ((← f.schemaOf s) = schema) (.missing s)
  return blacks

end Index

end InstanceTree
