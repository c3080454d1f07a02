import InstanceTree.Decimal.Digits

namespace InstanceTree.Decimal64

/-- The text of the number `scaled * 10 ^ -places`: exactly `places` digits after the point,
and no point if there are none. -/
def format (scaled : Int) (places : Nat) : List Char :=
  let ds := Decimal.padded (places + 1) (Decimal.digits scaled.natAbs)
  let whole := ds.take (ds.length - places)
  let fraction := ds.drop (ds.length - places)
  let sign := if scaled < 0 then ['-'] else []
  sign ++ whole ++ (if places = 0 then [] else '.' :: fraction)

/-- The digits before and after the point of a text without a sign. A point needs a digit
after it. -/
def split? (cs : List Char) : Option (List Char × List Char) :=
  match cs.dropWhile (· ≠ '.') with
  | [] => some (cs, [])
  | [_] => none
  | _ :: fraction => some (cs.takeWhile (· ≠ '.'), fraction)

/-- A number that fits into 128 bits. -/
def wide? (n : Int) : Option Int :=
  if -0x80000000000000000000000000000000 ≤ n ∧ n < 0x80000000000000000000000000000000 then some n
  else none

def inRange? (n : Int) : Option Int64 :=
  if Int64.minValue.toInt ≤ n ∧ n ≤ Int64.maxValue.toInt then some (Int64.ofInt n) else none

def magnitude? (places : Nat) (cs : List Char) : Option Nat := do
  let (whole, fraction) ← split? cs
  if whole.isEmpty ∨ places < fraction.length then
    none
  else if (whole ++ fraction).all Char.isDigit then
    let zeros := List.replicate (places - fraction.length) '0'
    some (Decimal.ofDigits (whole ++ fraction ++ zeros))
  else
    none

/-- Reads a number with at most `places` digits after its point and scales it, in 128 bits first. -/
def parse? (places : Nat) (cs : List Char) : Option Int64 :=
  match cs with
  | '-' :: cs => do inRange? (← wide? (-(← magnitude? places cs)))
  | cs => do inRange? (← wide? (← magnitude? places cs))

end InstanceTree.Decimal64
