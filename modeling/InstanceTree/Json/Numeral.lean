import InstanceTree.Json.Scan

namespace InstanceTree.Scan

def maxSignificand : Nat :=
  0xFFFFFFFFFFFFFFFF

/-- The greatest power of ten that a numeral may name. -/
def maxPower : Nat :=
  0x7FFFFFFF

/-- The greatest power of ten among the double precision numbers. -/
def maxStep : Nat :=
  308

/-- Appends digits to a significand while it stays in range; also counts them. -/
def absorb : Nat → List Char → Nat × Nat
  | m, [] => (m, 0)
  | m, c :: cs =>
    let m' := m * 10 + (c.toNat - '0'.toNat)
    if maxSignificand < m' then
      (m, 0)
    else
      let (total, count) := absorb m' cs
      (total, count + 1)

def powerOfTen (n : Nat) : Float :=
  Float.ofScientific 1 false n

/-- Scales `x` by a power of ten: one multiplication or division by a double precision power of
ten, after as many divisions as bring the exponent into range. The result is nothing if it
is out of range. Zero is reached before the steps end. -/
def scale : Nat → Float → Int → Option Float
  | 0, x, _ => some x
  | steps + 1, x, exponent =>
    if exponent.natAbs ≤ maxStep then
      let power := powerOfTen exponent.natAbs
      if exponent < 0 then
        some (x / power)
      else if (x * power).isInf then none else some (x * power)
    else if x == 0 then
      some x
    else if 0 ≤ exponent then
      none
    else
      scale steps (x / powerOfTen maxStep) (exponent + maxStep)

def floatOf (positive : Bool) (m : Nat) (exponent : Int) : Except TextFlaw Number :=
  match scale 8 (UInt64.ofNat m).toFloat exponent with
  | none => .error .malformed
  | some x => .ok (.float (if positive then x else -x).toBits)

def digitRun (cs : List Char) : List Char × List Char :=
  (cs.takeWhile Char.isDigit, cs.dropWhile Char.isDigit)

def numeralPower (positive : Bool) (m : Nat) (exponent : Int) : Scan Number
  | 'e' :: cs | 'E' :: cs => do
    let (rising, cs) := match cs with
      | '+' :: rest => (true, rest)
      | '-' :: rest => (false, rest)
      | rest => (true, rest)
    let (ds, rest) := digitRun cs
    if ds.isEmpty then
      throw (if cs.isEmpty then .unfinished else .malformed)
    let power := Decimal.ofDigits ds
    if maxPower < power then
      if m ≠ 0 ∧ rising then
        throw .malformed
      return (.float (if positive then (0.0 : Float) else -0.0).toBits, rest)
    return (← floatOf positive m (if rising then exponent + power else exponent - power), rest)
  | cs => do return (← floatOf positive m exponent, cs)

def numeralFraction (positive : Bool) (m : Nat) (exponent : Int) : Scan Number := fun cs => do
  let (ds, rest) := digitRun cs
  if ds.isEmpty then
    throw (if cs.isEmpty then .unfinished else .malformed)
  let (m, count) := absorb m ds
  numeralPower positive m (exponent - count) rest

theorem ofInt_neg_lt_zero {m : Nat} (h : 0 < m ∧ m ≤ 0x8000000000000000) :
    Int64.ofInt (-m) < 0 := by
  rw [Int64.lt_iff_toInt_lt, Int64.toInt_ofInt_of_le (by omega) (by omega), Int64.toInt_zero]
  omega

/-- A whole number of at most 64 bits as it stands in a document. Zero with a minus sign and
numbers below the signed range are double precision numbers. -/
def wholeNumber (positive : Bool) (m : Nat) : Number :=
  if positive then .natural (UInt64.ofNat m)
  else if h : 0 < m ∧ m ≤ 0x8000000000000000 then
    .negative (Int64.ofInt (-m)) (ofInt_neg_lt_zero h)
  else .float (-(UInt64.ofNat m).toFloat).toBits

def numeral (positive : Bool) : Scan Number := fun cs => do
  let (ds, rest) := digitRun cs
  match ds with
  | [] => throw (if cs.isEmpty then .unfinished else .malformed)
  | '0' :: _ :: _ => throw .malformed
  | _ => pure ()
  let (m, count) := absorb 0 ds
  let excess := ds.length - count
  match rest with
  | '.' :: rest => numeralFraction positive m excess rest
  | 'e' :: _ | 'E' :: _ => numeralPower positive m excess rest
  | _ =>
    if excess = 0 then
      return (wholeNumber positive m, rest)
    else
      return (← floatOf positive m excess, rest)

end InstanceTree.Scan
