import InstanceTree.Group.Order
import InstanceTree.Json.Basic
import InstanceTree.Value.Coding

namespace InstanceTree

/-- Adds an item to the array that is a member of an object; a member that is not an array
stays as it is. -/
def Json.Members.append (ms : Json.Members) (name : String) (item : Json) : Json.Members :=
  match ms.get? name with
  | none => ms.set name (.arr [item])
  | some (.arr items) => ms.set name (.arr (items ++ [item]))
  | some _ => ms

namespace Forest

variable [ByteCodec]

/-- Adds an instance to a document: leaf-lists and lists make up arrays, everything else is a
member of its own. -/
def addInstance (node : SchemaNode) (item : Json) (ms : Json.Members) : Json.Members :=
  match node.kind with
  | .leafList _ => ms.append node.name item
  | .list _ => ms.append node.name item
  | _ => ms.set node.name item

def exportBelow (ctx : Context) (f : Forest) : Nat → Option NodeId → Except Fault Json
  | 0, _ => .error .endless
  | depth + 1, parent => do
    let members ← (← f.children parent).foldlM (fun ms n => do
      let node ← f.schemaNode ctx n
      let item ← match (← f.element n).content with
        | .term v => pure v.toJson
        | .inner _ => exportBelow ctx f depth (some n)
      return addInstance node item ms) []
    return .obj members

/-- The document that the children of a parent, or the elements at the top, make up. -/
def toJson (ctx : Context) (f : Forest) (parent : Option NodeId) : Except Fault Json :=
  exportBelow ctx f f.steps parent

end Forest

end InstanceTree
