import InstanceTree.Fault
import InstanceTree.Value.Basic

namespace InstanceTree.Value

def compareBytes (a b : List UInt8) : Ordering :=
  (compare a.length b.length).then (compare a b)

/-- The order of two values of one type: numbers by size, texts by their characters, `false`
before `true`. -/
def compare : Value → Value → Except Fault Ordering
  | .int a, .int b => .ok (Ord.compare a b)
  | .uint a, .uint b => .ok (Ord.compare a b)
  | .decimal64 a p, .decimal64 b q =>
    if p = q then .ok (Ord.compare a b)
    else .error (.typesDiffer (.decimal64 p) (.decimal64 q))
  | .bool a, .bool b => .ok (Ord.compare a b)
  | .string a, .string b => .ok (Ord.compare a b)
  | .enumeration a, .enumeration b => .ok (Ord.compare a b)
  | .identityref a, .identityref b => .ok (Ord.compare a b)
  | .binary a, .binary b => .ok (compareBytes a b)
  | .empty, .empty => .ok .eq
  | a, b => .error (.typesDiffer a.type b.type)

end InstanceTree.Value
