import InstanceTree.Decimal.Digits

namespace InstanceTree.Decimal

def twoTo (n : Nat) : Nat :=
  Nat.pow 2 n

def tenTo (n : Nat) : Nat :=
  Nat.pow 10 n

/-- A positive number `coefficient * 10 ^ exponent`. -/
structure Scaled where
  coefficient : Nat
  exponent : Int
deriving DecidableEq, Repr

/-- The reals that round to one binary fraction: everything between `low` and `high`, in units
of `2 ^ exponent`, around `centre`; the ends belong to it if `closed` holds. -/
structure Neighbourhood where
  low : Nat
  centre : Nat
  high : Nat
  exponent : Int
  closed : Bool

namespace Neighbourhood

/-- The reals that round to the positive double precision number with the given bits. -/
def ofBits (bits : UInt64) : Neighbourhood :=
  let fraction : Nat := bits.toNat % twoTo 52
  let biased : Nat := bits.toNat / twoTo 52 % twoTo 11
  let m : Nat := if biased = 0 then fraction else twoTo 52 + fraction
  let q : Int := if biased = 0 then -1074 else (biased : Int) - 1075
  let below : Nat := if fraction = 0 ∧ 1 < biased then 1 else 2
  ⟨4 * m - below, 4 * m, 4 * m + 2, q - 2, m % 2 == 0⟩

/-- The unit of a neighbourhood and the step `10 ^ k` of a decimal grid as multiples of one
common fraction. -/
def scales (r : Neighbourhood) (k : Int) : Nat × Nat :=
  (twoTo r.exponent.toNat * tenTo (-k).toNat, tenTo k.toNat * twoTo (-r.exponent).toNat)

/-- The grid point of step `10 ^ k` in the neighbourhood that is nearest to the centre, the even
one of two equally near ones, if there is any. -/
def gridPoint? (r : Neighbourhood) (k : Int) : Option Nat :=
  let (unit, step) := r.scales k
  let inside := fun c =>
    if r.closed then r.low * unit ≤ c * step ∧ c * step ≤ r.high * unit
    else r.low * unit < c * step ∧ c * step < r.high * unit
  let down := r.centre * unit / step
  let up := down + 1
  let toDown := r.centre * unit - down * step
  let toUp := up * step - r.centre * unit
  let downFirst := toDown < toUp ∨ toDown = toUp ∧ down % 2 = 0
  let (near, far) := if downFirst then (down, up) else (up, down)
  if inside near then some near else if inside far then some far else none

def gridExponents : List Int :=
  (List.range 640).map fun i : Nat => 310 - (i : Int)

/-- The number with the fewest digits in a neighbourhood, which lies on the coarsest grid
that has a point there. -/
def shortest (r : Neighbourhood) : Scaled :=
  match gridExponents.findSome? fun k => (r.gridPoint? k).map fun c => Scaled.mk c k with
  | some s => s
  | none => ⟨r.centre, 0⟩

end Neighbourhood

def Scaled.positional (s : Scaled) : List Char :=
  let ds := digits s.coefficient
  if 0 ≤ s.exponent then
    ds ++ List.replicate s.exponent.toNat '0' ++ ['.', '0']
  else
    let places := (-s.exponent).toNat
    let ds := padded (places + 1) ds
    ds.take (ds.length - places) ++ '.' :: ds.drop (ds.length - places)

def Scaled.scientific (s : Scaled) : List Char :=
  let ds := digits s.coefficient
  let power := s.exponent + (ds.length - 1 : Nat)
  let mantissa := match ds with
    | d :: e :: rest => d :: '.' :: e :: rest
    | short => short
  let sign := if power < 0 then '-' else '+'
  mantissa ++ 'e' :: sign :: digits power.natAbs

/-- A number in positional notation from `0.00001` up to below `10 ^ 16`, otherwise with a
power of ten. -/
def Scaled.text (s : Scaled) : List Char :=
  let point := s.exponent + (digits s.coefficient).length
  if -5 < point ∧ point ≤ 16 then s.positional else s.scientific

/-- The shortest text that reads back as the double precision number with the given bits. -/
def floatText (bits : UInt64) : List Char :=
  let sign := if bits.toNat / twoTo 63 = 1 then ['-'] else []
  let magnitude := bits.toNat % twoTo 63
  if magnitude = 0 then
    sign ++ ['0', '.', '0']
  else
    sign ++ (Neighbourhood.ofBits bits).shortest.text

end InstanceTree.Decimal
