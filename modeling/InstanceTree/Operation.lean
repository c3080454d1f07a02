import InstanceTree.Document.Import
import InstanceTree.Forest.Metadata

namespace InstanceTree

inductive Operation where
  | createTerm (schema : SchemaId) (value : Value)
  | createContainer (schema : SchemaId)
  | createList (schema : SchemaId) (keys : List Value)
  | insertChild (parent : Option NodeId) (n : NodeId)
  | insertBefore (pivot n : NodeId)
  | insertAfter (pivot n : NodeId)
  | appendSibling (sibling n : NodeId)
  | unlink (n : NodeId)
  | free (n : NodeId)
  | addMetadata (n : NodeId) (name value : String)
  | removeMetadata (n : NodeId) (name : String)
  | importDocument (parent : Option NodeId) (document : Json)
deriving DecidableEq, Repr

inductive Outcome where
  | done
  | created (n : NodeId)
  | imported (ns : List NodeId)
  | removed (entry : Option Metadata)
deriving DecidableEq, Repr

def Operation.perform (ctx : Context) : Operation → Edit Outcome
  | createTerm schema value => return .created (← Forest.createTerm ctx schema value)
  | createContainer schema => return .created (← Forest.createContainer ctx schema)
  | createList schema keys => return .created (← Forest.createList ctx schema keys)
  | insertChild parent n => do
    Forest.insertChild ctx parent n
    return .done
  | insertBefore pivot n => do
    Forest.insertBefore ctx pivot n
    return .done
  | insertAfter pivot n => do
    Forest.insertAfter ctx pivot n
    return .done
  | appendSibling sibling n => do
    Forest.appendSibling ctx sibling n
    return .done
  | unlink n => do
    Forest.unlink ctx n
    return .done
  | free n => do
    Forest.free ctx n
    return .done
  | addMetadata n name value => do
    Forest.addMetadata n name value
    return .done
  | removeMetadata n name => return .removed (← Forest.removeMetadata n name)
  | importDocument parent document => return .imported (← Forest.ofJson ctx parent document)

end InstanceTree
