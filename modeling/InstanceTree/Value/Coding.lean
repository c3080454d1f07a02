import InstanceTree.Json.Basic
import InstanceTree.Value.Base64
import InstanceTree.Value.Basic
import InstanceTree.Value.Decimal64

namespace InstanceTree.Value

variable [ByteCodec]

def canonical : Value → String
  | .int v => toString v.toInt
  | .uint v => toString v.toNat
  | .decimal64 scaled places => String.ofList (Decimal64.format scaled.toInt places.toNat)
  | .bool true => "true"
  | .bool false => "false"
  | .string s => s
  | .enumeration s => s
  | .identityref s => s
  | .binary bytes => String.ofList (ByteCodec.encode bytes)
  | .empty => ""

/-- A value in a document: whole numbers and truth values as such, `empty` as an array of one
`null`, everything else as text. -/
def toJson : Value → Json
  | .int v => .num (.signed v)
  | .uint v => .num (.natural v)
  | .bool b => .bool b
  | .empty => .arr [.null]
  | v => .str v.canonical

def signed? (n : Int) : Option Int64 :=
  Decimal64.inRange? n

def unsigned? (n : Int) : Option UInt64 :=
  if 0 ≤ n ∧ n < UInt64.size then some (UInt64.ofNat n.toNat) else none

def ofJson? : ValueType → Json → Option Value
  | .int, j => do return .int (← signed? (← j.int?))
  | .uint, j => do return .uint (← unsigned? (← j.int?))
  | .decimal64 places, j => do
    return .decimal64 (← Decimal64.parse? places.toNat (← j.str?).toList) places
  | .bool, j => do return .bool (← j.bool?)
  | .string, j => do return .string (← j.str?)
  | .enumeration, j => do return .enumeration (← j.str?)
  | .identityref, j => do return .identityref (← j.str?)
  | .binary, j => do return .binary (← ByteCodec.decode? (← j.str?).toList)
  | .empty, .arr [.null] => some .empty
  | .empty, _ => none

end InstanceTree.Value
