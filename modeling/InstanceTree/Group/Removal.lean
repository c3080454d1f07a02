import InstanceTree.Group.Sorted

namespace InstanceTree.Forest

/-- Takes a linked element out of its sorted group, if it is in one, and out of its chain. -/
def detach (ctx : Context) (f : Forest) (n : NodeId) : Except Fault Forest := do
  let e ← f.element n
  let f ← if ← f.isSorted ctx n then do
      match ← f.runStart e.parent e.schema with
      | none => pure f
      | some leader => do
        let (f, _) ← f.removeSorted ctx leader n
        pure f
    else pure f
  let f ← f.clearAnchor n
  f.takeOut n

/-- Takes an element out of its chain; it keeps its children and stays stored. -/
def unlink (ctx : Context) (n : NodeId) : Edit Unit := do
  let e ← Edit.look (element · n)
  unless e.linked do
    Edit.refuse .notLinked
  let node ← Edit.look (schemaNode ctx · n)
  if node.isKey ∧ e.parent.isSome then
    Edit.mismatch (.keyRemoved node.name)
  Edit.change (detach ctx · n)

def free (ctx : Context) (n : NodeId) : Edit Unit := do
  if (← Edit.look (element · n)).linked then
    unlink ctx n
  Edit.change (release · n)

end InstanceTree.Forest
