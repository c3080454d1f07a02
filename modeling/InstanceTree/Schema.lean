import InstanceTree.Fault

namespace InstanceTree

/-- A schema node, by its place in the order of creation. -/
abbrev SchemaId := Nat

inductive OrderedBy where
  | system
  | user
deriving DecidableEq, Repr

inductive SchemaKind where
  | container
  | leaf (type : ValueType)
  | leafList (type : ValueType)
  /-- A list with its key leaves in declared order; a keyless list has none. -/
  | list (keys : List SchemaId)
deriving DecidableEq, Repr

namespace SchemaKind

def hasChildren : SchemaKind → Bool
  | .container => true
  | .list _ => true
  | .leaf _ => false
  | .leafList _ => false

end SchemaKind

structure SchemaNode where
  name : String
  kind : SchemaKind
  parent : Option SchemaId
  orderedBy : OrderedBy
  isKey : Bool
  children : List SchemaId
deriving DecidableEq, Repr

namespace SchemaNode

def isLeafList (n : SchemaNode) : Bool :=
  match n.kind with
  | .leafList _ => true
  | _ => false

def isList (n : SchemaNode) : Bool :=
  match n.kind with
  | .list _ => true
  | _ => false

def isKeyless (n : SchemaNode) : Bool :=
  match n.kind with
  | .list [] => true
  | _ => false

def valueType? (n : SchemaNode) : Option ValueType :=
  match n.kind with
  | .leaf type => some type
  | .leafList type => some type
  | _ => none

def keys (n : SchemaNode) : List SchemaId :=
  match n.kind with
  | .list keys => keys
  | _ => []

end SchemaNode

structure Schema where
  nodes : Array SchemaNode := #[]
  roots : List SchemaId := []
deriving DecidableEq, Repr

namespace Schema

def empty : Schema := {}

def get (s : Schema) (id : SchemaId) : Except Fault SchemaNode :=
  if h : id < s.nodes.size then .ok s.nodes[id] else .error (.outOfRange s.nodes.size id)

def children (s : Schema) : Option SchemaId → Except Fault (List SchemaId)
  | none => .ok s.roots
  | some p => do return (← s.get p).children

def hasName (s : Schema) (name : String) (id : SchemaId) : Bool :=
  match s.nodes[id]? with
  | some n => n.name = name
  | none => false

def child? (s : Schema) (parent : Option SchemaId) (name : String) :
    Except Fault (Option SchemaId) := do
  return (← s.children parent).find? (s.hasName name)

def modify (s : Schema) (id : SchemaId) (f : SchemaNode → SchemaNode) : Schema :=
  { s with nodes := s.nodes.modify id f }

def register (s : Schema) (parent : Option SchemaId) (id : SchemaId) : Schema :=
  match parent with
  | none => { s with roots := s.roots ++ [id] }
  | some p => s.modify p fun n => { n with children := n.children ++ [id] }

def requireParent (s : Schema) : Option SchemaId → Except Fault Unit
  | none => .ok ()
  | some p => do
    let n ← s.get p
    unless n.kind.hasChildren do
      throw (.schemaChildless n.name)

/-- The number of the node at a place, which has 32 bits. -/
def numberAt (place : Nat) : SchemaId :=
  place % handleCount

/-- Adds a node and registers it under a number, if it may stand below its parent and no sibling has
its name. -/
def enter (s : Schema) (node : SchemaNode) (id : SchemaId) : Except Fault Schema := do
  s.requireParent node.parent
  if (← s.child? node.parent node.name).isSome then
    throw (.schemaDuplicate node.name)
  return { s with nodes := s.nodes.push node }.register node.parent id

def push (s : Schema) (node : SchemaNode) : Except Fault (Schema × SchemaId) := do
  let id := numberAt s.nodes.size
  return (← s.enter node id, id)

def addContainer (s : Schema) (parent : Option SchemaId) (name : String) :
    Except Fault (Schema × SchemaId) :=
  s.push ⟨name, .container, parent, .system, false, []⟩

def addLeaf (s : Schema) (parent : Option SchemaId) (name : String) (type : ValueType) :
    Except Fault (Schema × SchemaId) :=
  s.push ⟨name, .leaf type, parent, .system, false, []⟩

def addLeafList (s : Schema) (parent : Option SchemaId) (name : String) (type : ValueType)
    (orderedBy : OrderedBy) : Except Fault (Schema × SchemaId) :=
  s.push ⟨name, .leafList type, parent, orderedBy, false, []⟩

def pushKeys (list : SchemaId) :
    Schema → List (String × ValueType) → Except Fault (Schema × List SchemaId)
  | s, [] => .ok (s, [])
  | s, (name, type) :: rest => do
    let (s, id) ← s.addLeaf (some list) name type
    let (s, ids) ← pushKeys list (s.modify id fun n => { n with isKey := true }) rest
    return (s, id :: ids)

/-- Adds a list with its key leaves, which become its first children. -/
def addList (s : Schema) (parent : Option SchemaId) (name : String)
    (keys : List (String × ValueType)) (orderedBy : OrderedBy) :
    Except Fault (Schema × SchemaId) := do
  let (s, list) ← s.push ⟨name, .list [], parent, orderedBy, false, []⟩
  let (s, ids) ← pushKeys list s keys
  return (s.modify list fun n => { n with kind := .list ids }, list)

end Schema

end InstanceTree
