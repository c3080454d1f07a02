import InstanceTree.Forest.Edit

namespace InstanceTree.Forest

def create (schema : SchemaId) (content : Content) : Edit NodeId := do
  let (f, id) ← Edit.look (allocate · schema content)
  set f
  return id

def createTerm (ctx : Context) (schema : SchemaId) (value : Value) : Edit NodeId := do
  let node ← Edit.look fun _ => ctx.schema.get schema
  match node.valueType? with
  | none => Edit.mismatch (.notTerminal node.name)
  | some type =>
    if type = value.type then
      create schema (.term value)
    else
      Edit.invalid (.wrongType node.name type value.type)

def createContainer (ctx : Context) (schema : SchemaId) : Edit NodeId := do
  let node ← Edit.look fun _ => ctx.schema.get schema
  if node.kind = .container then
    create schema (.inner {})
  else
    Edit.mismatch (.notContainer node.name)

def requireKeyTypes (ctx : Context) : List SchemaId → List Value → Edit Unit
  | schema :: schemas, value :: values => do
    let key ← Edit.look fun _ => ctx.schema.get schema
    if key.valueType? ≠ some value.type then
      Edit.invalid (.wrongKeyType key.name key.valueType? value.type)
    requireKeyTypes ctx schemas values
  | _, _ => pure ()

def createKeys (list : NodeId) : List SchemaId → List Value → Edit Unit
  | schema :: schemas, value :: values => do
    let key ← create schema (.term value)
    Edit.change (spliceLast · (some list) key)
    createKeys list schemas values
  | _, _ => pure ()

/-- Creates a list instance with its key leaves; the values are given in declared order. -/
def createList (ctx : Context) (schema : SchemaId) (values : List Value) : Edit NodeId := do
  let node ← Edit.look fun _ => ctx.schema.get schema
  match node.kind with
  | .list keys =>
    if keys.length ≠ values.length then
      Edit.invalid (.wrongKeyCount node.name keys.length values.length)
    requireKeyTypes ctx keys values
    let list ← create schema (.inner {})
    createKeys list keys values
    return list
  | _ => Edit.mismatch (.notList node.name)

end InstanceTree.Forest
