import InstanceTree.Context.Basic
import InstanceTree.Json.Printer

namespace InstanceTree

inductive InvalidValue where
  | wrongType (name : String) (expected actual : ValueType)
  | wrongKeyCount (name : String) (expected actual : Nat)
  | wrongKeyType (name : String) (expected : Option ValueType) (actual : ValueType)
  | notOfType (document : Json) (type : ValueType)
  | notAnObject (document : Json)
  | instanceNotAnObject (name : String)
  | keyMissing (name key : String)
  | notAnArray (name : String) (document : Json)
deriving DecidableEq, Repr

namespace InvalidValue

def message : InvalidValue → String
  | wrongType name expected actual =>
    quoted name ++ " expects " ++ expected.describe ++ ", got " ++ actual.describe
  | wrongKeyCount name expected actual =>
    quoted name ++ " has " ++ toString expected ++ " keys, got " ++ toString actual
  | wrongKeyType name expected actual =>
    "key " ++ quoted name ++ " expects " ++ ValueType.describe? expected ++ ", got " ++
      actual.describe
  | notOfType document type => document.text ++ " is not a valid " ++ type.describe ++ " value"
  | notAnObject document => "expected an object, got " ++ document.text
  | instanceNotAnObject name => quoted name ++ " instance must be an object"
  | keyMissing name key => quoted name ++ " instance lacks key " ++ quoted key
  | notAnArray name document => quoted name ++ " expects an array, got " ++ document.text

end InvalidValue

inductive SchemaMismatch where
  | notTerminal (name : String)
  | notContainer (name : String)
  | notList (name : String)
  /-- The schema node belongs under another parent than the given one. -/
  | wrongParent (name : String) (parent : Option String)
  | systemOrdered (name : String)
  | keyPlaced (name : String)
  | keyRemoved (name : String)
  | beforeKey (name key : String)
  | splitsRun (name : String)
  | awayFromRun (name : String)
  | unknownMember (name : String)
  | keyNotLeaf (name : String)
deriving DecidableEq, Repr

namespace SchemaMismatch

def message : SchemaMismatch → String
  | notTerminal name => quoted name ++ " is not a leaf or leaf-list"
  | notContainer name => quoted name ++ " is not a container"
  | notList name => quoted name ++ " is not a list"
  | wrongParent name parent =>
    let place := match parent with
      | none => "the top level"
      | some p => quoted p
    quoted name ++ " cannot be placed under " ++ place
  | systemOrdered name =>
    quoted name ++ " is ordered by the system and cannot be placed explicitly"
  | keyPlaced name => "key " ++ quoted name ++ " is created with its list instance"
  | keyRemoved name => "key " ++ quoted name ++ " cannot be removed from its list instance"
  | beforeKey name key => quoted name ++ " cannot be placed before key " ++ quoted key
  | splitsRun name => quoted name ++ " would split a run of other instances"
  | awayFromRun name => quoted name ++ " must be placed next to its other instances"
  | unknownMember name => "unknown member " ++ quoted name
  | keyNotLeaf name => "key " ++ quoted name ++ " is not a leaf"

end SchemaMismatch

inductive Refusal where
  /-- The index of a group has reached its limit. -/
  | indexFull
  /-- The module that sorted indexes belong to is not loaded. -/
  | indexModuleMissing
  | invalidValue (why : InvalidValue)
  | schemaMismatch (why : SchemaMismatch)
  | alreadyLinked
  | notLinked
  | reservedName (name : String)
deriving DecidableEq, Repr

def Refusal.message : Refusal → String
  | indexFull => "allocation of red-black node failed"
  | indexModuleMissing =>
    "module " ++ quoted yangModule ++ " is not loaded, sorted index metadata unavailable"
  | invalidValue why => "invalid value: " ++ why.message
  | schemaMismatch why => "schema mismatch: " ++ why.message
  | alreadyLinked => "node is already linked into the data tree"
  | notLinked => "node is not linked into the data tree"
  | reservedName name => "metadata name " ++ quoted name ++ " is reserved"

end InstanceTree
