namespace InstanceTree

inductive ValueType where
  | int
  | uint
  | decimal64 (fractionDigits : UInt8)
  | bool
  | string
  | binary
  | enumeration
  | identityref
  | empty
deriving DecidableEq, Repr

namespace ValueType

def describe : ValueType → String
  | .int => "Int"
  | .uint => "Uint"
  | .decimal64 n => "Decimal64 \x7b fraction_digits: " ++ toString n.toNat ++ " \x7d"
  | .bool => "Bool"
  | .string => "String"
  | .binary => "Binary"
  | .enumeration => "Enumeration"
  | .identityref => "Identityref"
  | .empty => "Empty"

def describe? : Option ValueType → String
  | none => "None"
  | some type => "Some(" ++ type.describe ++ ")"

end ValueType

end InstanceTree
