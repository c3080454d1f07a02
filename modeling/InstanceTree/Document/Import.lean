import InstanceTree.Forest.Create
import InstanceTree.Group.Placement
import InstanceTree.Group.Removal
import InstanceTree.Value.Coding

namespace InstanceTree.Forest

variable [ByteCodec]

def readValue (type : ValueType) (j : Json) : Edit Value :=
  match Value.ofJson? type j with
  | some v => pure v
  | none => Edit.invalid (.notOfType j type)

/-- Links a new element below a parent; if this is refused, the element is freed again. -/
def linkNew (ctx : Context) (parent : Option NodeId) (n : NodeId) : Edit Unit :=
  try
    insertChild ctx parent n
  catch why =>
    free ctx n
    throw why

def importTerm (ctx : Context) (parent : Option NodeId) (schema : SchemaId) (type : ValueType)
    (j : Json) : Edit NodeId := do
  let n ← createTerm ctx schema (← readValue type j)
  linkNew ctx parent n
  return n

def importTerms (ctx : Context) (parent : Option NodeId) (schema : SchemaId)
    (type : ValueType) : List Json → Edit (List NodeId)
  | [] => pure []
  | j :: rest => do
    let n ← importTerm ctx parent schema type j
    return n :: (← importTerms ctx parent schema type rest)

def readKeys (ctx : Context) (list : String) (fields : Json.Members) :
    List SchemaId → Edit (List Value)
  | [] => pure []
  | key :: keys => do
    let node ← Edit.look fun _ => ctx.schema.get key
    let some j := fields.get? node.name | Edit.invalid (.keyMissing list node.name)
    let some type := node.valueType? | Edit.mismatch (.keyNotLeaf node.name)
    let v ← readValue type j
    return v :: (← readKeys ctx list fields keys)

/-- Creates the instances that a member of an object stands for if none of them is read from a
document inside it. Key leaves are skipped: they are created with their list instance. -/
def importFlat (ctx : Context) (parent : Option NodeId) (schema : SchemaId) (node : SchemaNode)
    (j : Json) : Edit (List NodeId) :=
  match node.kind with
  | .leaf type => do
    if node.isKey ∧ parent.isSome then
      return []
    return [← importTerm ctx parent schema type j]
  | .leafList type => match j with
    | .arr items => importTerms ctx parent schema type items
    | j => Edit.invalid (.notAnArray node.name j)
  | .container => do
    let n ← createContainer ctx schema
    linkNew ctx parent n
    Edit.invalid (.notAnObject j)
  | .list _ => Edit.invalid (.notAnArray node.name j)

mutual

def importMember (ctx : Context) (parent : Option NodeId) (schema : SchemaId) :
    Json → Edit (List NodeId)
  | .obj members => do
    let node ← Edit.look fun _ => ctx.schema.get schema
    match node.kind with
    | .container =>
      let n ← createContainer ctx schema
      linkNew ctx parent n
      let _ ← importMembers ctx (some n) (some schema) members
      return [n]
    | _ => importFlat ctx parent schema node (.obj members)
  | .arr items => do
    let node ← Edit.look fun _ => ctx.schema.get schema
    match node.kind with
    | .list keys => importEntries ctx parent schema node.name keys items
    | _ => importFlat ctx parent schema node (.arr items)
  | j => do
    let node ← Edit.look fun _ => ctx.schema.get schema
    importFlat ctx parent schema node j

def importEntries (ctx : Context) (parent : Option NodeId) (schema : SchemaId) (name : String)
    (keys : List SchemaId) : List Json → Edit (List NodeId)
  | [] => pure []
  | .obj fields :: rest => do
    let n ← createList ctx schema (← readKeys ctx name fields keys)
    linkNew ctx parent n
    let _ ← importMembers ctx (some n) (some schema) fields
    return n :: (← importEntries ctx parent schema name keys rest)
  | _ :: _ => Edit.invalid (.instanceNotAnObject name)

def importMembers (ctx : Context) (parent : Option NodeId) (schema : Option SchemaId) :
    List (String × Json) → Edit (List NodeId)
  | [] => pure []
  | (name, j) :: rest => do
    let some child ← Edit.look fun _ => ctx.schema.child? schema name
      | Edit.mismatch (.unknownMember name)
    let created ← importMember ctx parent child j
    return created ++ (← importMembers ctx parent schema rest)

end

/-- Creates the instances that a document stands for, below an element or at the top, and gives
the outermost ones. What has been linked before a refusal stays. -/
def ofJson (ctx : Context) (parent : Option NodeId) : Json → Edit (List NodeId)
  | .obj members => do
    let schema ← parent.mapM fun p => Edit.look (schemaOf · p)
    importMembers ctx parent schema members
  | j => Edit.invalid (.notAnObject j)

end InstanceTree.Forest
