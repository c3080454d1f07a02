import InstanceTree.Forest.Edit

namespace InstanceTree.Forest

/-- The name under which a sorted index is attached to an element. -/
def anchorTag : String :=
  "lyds_tree"

/-- Whether a name, with or without its module in front, belongs to sorted indexes. -/
def isReserved (name : String) : Bool :=
  name = anchorTag || name = yangModule ++ ":" ++ anchorTag

def addMetadata (n : NodeId) (name value : String) : Edit Unit := do
  if isReserved name then
    Edit.refuse (.reservedName name)
  Edit.change (update · n fun e => { e with metadata := e.metadata ++ [⟨name, value⟩] })

def metadata (f : Forest) (n : NodeId) : Except Fault (List Metadata) := do
  return (← f.element n).metadata

def removeMetadata (n : NodeId) (name : String) : Edit (Option Metadata) := do
  let e ← Edit.look (element · n)
  Edit.change (update · n fun e =>
    { e with metadata := e.metadata.eraseP fun m => m.name = name })
  return e.metadata.find? fun m => m.name = name

end InstanceTree.Forest
