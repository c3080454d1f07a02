import InstanceTree.Forest.Edit
import InstanceTree.Group.Sorted

namespace InstanceTree.Forest

def requireUnlinked (n : NodeId) : Edit Unit := do
  if (← Edit.look (element · n)).linked then
    Edit.refuse .alreadyLinked

def requireLinked (n : NodeId) : Edit Unit := do
  unless (← Edit.look (element · n)).linked do
    Edit.refuse .notLinked

/-- Refuses a parent that the schema does not give to instances like `n`. -/
def requireParent (ctx : Context) (parent : Option NodeId) (n : NodeId) : Edit Unit := do
  let expected ← parent.mapM fun p => Edit.look (schemaOf · p)
  let node ← Edit.look (schemaNode ctx · n)
  if node.parent ≠ expected then
    let place ← expected.mapM fun s => Edit.look fun _ => ctx.schema.get s
    Edit.mismatch (.wrongParent node.name (place.map (·.name)))

def neighbourSchema (link : Option NodeId) : Edit (Option SchemaId) :=
  link.mapM fun id => Edit.look (schemaOf · id)

/-- Refuses an explicit place between `prev` and `next` that would break the order kept by the
system, the lead of the key leaves, or a run of instances of one schema node. -/
def requirePlace (ctx : Context) (prev next : Option NodeId) (n : NodeId) : Edit Unit := do
  let node ← Edit.look (schemaNode ctx · n)
  if node.sortKind?.isSome then
    Edit.mismatch (.systemOrdered node.name)
  if node.isKey then
    Edit.mismatch (.keyPlaced node.name)
  if let some x := next then
    let following ← Edit.look (schemaNode ctx · x)
    if following.isKey then
      Edit.mismatch (.beforeKey node.name following.name)
  let schema ← Edit.look (schemaOf · n)
  let before ← neighbourSchema prev
  let after ← neighbourSchema next
  if before.isSome ∧ before = after ∧ before ≠ some schema then
    Edit.mismatch (.splitsRun node.name)
  let parent ← match prev.or next with
    | none => pure none
    | some sibling => do pure (← Edit.look (element · sibling)).parent
  let leader ← Edit.look (runStart · parent schema)
  if leader.isSome ∧ before ≠ some schema ∧ after ≠ some schema then
    Edit.mismatch (.awayFromRun node.name)

def insertBefore (ctx : Context) (pivot n : NodeId) : Edit Unit := do
  requireUnlinked n
  requireLinked pivot
  let p ← Edit.look (element · pivot)
  requireParent ctx p.parent n
  requirePlace ctx p.prev (some pivot) n
  Edit.change (spliceBefore · pivot n)

def insertAfter (ctx : Context) (pivot n : NodeId) : Edit Unit := do
  requireUnlinked n
  requireLinked pivot
  let p ← Edit.look (element · pivot)
  requireParent ctx p.parent n
  requirePlace ctx (some pivot) p.next n
  Edit.change (spliceAfter · pivot n)

inductive Spot where
  | before (pivot : NodeId)
  | after (pivot : NodeId)
deriving DecidableEq, Repr

def spliceAt (f : Forest) (n : NodeId) : Spot → Except Fault Forest
  | .before pivot => f.spliceBefore pivot n
  | .after pivot => f.spliceAfter pivot n

/-- Searches a group for the place of `n`: before the first member that is greater, otherwise
after the last one. -/
def scanSpot (ctx : Context) (f : Forest) (schema : SchemaId) (n : NodeId) :
    Nat → NodeId → Option NodeId → Except Fault Spot
  | _, last, none => .ok (.after last)
  | 0, _, some _ => .error .endless
  | fuel + 1, last, some m => do
    let e ← f.element m
    if e.schema ≠ schema then
      return .after last
    match ← f.compare ctx m n with
    | .gt => return .before m
    | _ => f.scanSpot ctx schema n fuel m e.next

/-- Links `n` into the sorted group that starts with `leader`, by comparing one member after
the other. -/
def insertByScan (ctx : Context) (leader n : NodeId) : Edit Unit :=
  Edit.change fun f => do
    let spot ← f.scanSpot ctx (← f.schemaOf leader) n f.steps leader (some leader)
    f.spliceAt n spot

/-- Links `n` into the sorted group that starts with `leader`: through the index of the group,
or one by one where there can be no index. -/
def insertIntoGroup (ctx : Context) (leader n : NodeId) : Edit Unit :=
  try
    let _ ← insertSorted ctx leader n
  catch
    | .indexModuleMissing => insertByScan ctx leader n
    | why => throw why

/-- Links `n` behind the last instance of its schema node, or as the last child. -/
def appendInstance (parent : Option NodeId) (schema : SchemaId) (n : NodeId) : Edit Unit :=
  Edit.change fun f => do
    match ← f.runEnd parent schema with
    | some last => f.spliceAfter last n
    | none => f.spliceLast parent n

/-- Links `n` as the first member of a sorted group, which is anchored if it can be. -/
def startGroup (ctx : Context) (parent : Option NodeId) (n : NodeId) : Edit Unit := do
  Edit.change (spliceLast · parent n)
  try ensureAnchor ctx n catch _ => pure ()

/-- Links `n` below a parent, or at the top: at its sorted position among instances that are
ordered by the system, otherwise behind the last instance of its schema node or at the
end. -/
def insertChild (ctx : Context) (parent : Option NodeId) (n : NodeId) : Edit Unit := do
  requireUnlinked n
  requireParent ctx parent n
  let node ← Edit.look (schemaNode ctx · n)
  if node.isKey then
    Edit.mismatch (.keyPlaced node.name)
  let schema ← Edit.look (schemaOf · n)
  let leader ← Edit.look (runStart · parent schema)
  if node.sortKind?.isNone then
    appendInstance parent schema n
  else match leader with
    | none => startGroup ctx parent n
    | some leader => insertIntoGroup ctx leader n

def appendSibling (ctx : Context) (sibling n : NodeId) : Edit Unit := do
  requireLinked sibling
  insertChild ctx (← Edit.look (element · sibling)).parent n

end InstanceTree.Forest
