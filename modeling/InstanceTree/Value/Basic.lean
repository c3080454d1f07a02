import InstanceTree.Value.Type

namespace InstanceTree

inductive Value where
  | int (value : Int64)
  | uint (value : UInt64)
  /-- The number `scaled * 10 ^ -fractionDigits`. -/
  | decimal64 (scaled : Int64) (fractionDigits : UInt8)
  | bool (value : Bool)
  | string (text : String)
  | binary (bytes : List UInt8)
  | enumeration (name : String)
  | identityref (name : String)
  | empty
deriving DecidableEq, Repr

def Value.type : Value → ValueType
  | .int _ => .int
  | .uint _ => .uint
  | .decimal64 _ fractionDigits => .decimal64 fractionDigits
  | .bool _ => .bool
  | .string _ => .string
  | .binary _ => .binary
  | .enumeration _ => .enumeration
  | .identityref _ => .identityref
  | .empty => .empty

end InstanceTree
