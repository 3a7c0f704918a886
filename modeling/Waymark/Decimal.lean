namespace Waymark

/-- A positive binary64 number `significand * 2 ^ exponent`. The gap below a power of two is half
the gap above it, unless the number is among the smallest. -/
structure Binary where
  significand : Nat
  exponent : Int
  halfGapBelow : Bool
  deriving DecidableEq, Repr

namespace Binary

/-- The magnitude of a finite number other than zero, from its bits. -/
def ofBits (bits : UInt64) : Binary :=
  let fraction := (bits &&& 0xfffffffffffff).toNat
  let biased := (bits >>> 52 &&& 0x7ff).toNat
  if biased = 0 then ⟨fraction, -1074, false⟩
  else ⟨1 <<< 52 + fraction, biased - 1075, fraction = 0 && 1 < biased⟩

/-- Quarters of the unit in the last place, in which the ends of the rounding interval are whole. -/
def quarters (x : Binary) : Nat := 4 * x.significand

def lower (x : Binary) : Nat := x.quarters - if x.halfGapBelow then 1 else 2

def upper (x : Binary) : Nat := x.quarters + 2

/-- Factors that bring multiples of `10 ^ p` and of a quarter unit to one common scale. -/
def scales (x : Binary) (p : Int) : Nat × Nat :=
  let q := x.exponent - 2
  (Nat.pow 10 p.toNat <<< (-q).toNat, Nat.pow 10 (-p).toNat <<< q.toNat)

/-- Whether `c * 10 ^ p` rounds to `x`. The ends of the interval do if the significand is even. -/
def readsBack (x : Binary) (p : Int) (c : Nat) : Bool :=
  let (ten, two) := x.scales p
  if x.significand % 2 = 0 then x.lower * two ≤ c * ten && c * ten ≤ x.upper * two
  else x.lower * two < c * ten && c * ten < x.upper * two

/-- The multiple of `10 ^ p` next to `x` that reads back as `x`: of two the nearer, and the larger
if both are equally near. -/
def onGrid? (x : Binary) (p : Int) : Option Nat :=
  let (ten, two) := x.scales p
  let c := x.quarters * two / ten
  match x.readsBack p c, x.readsBack p (c + 1) with
  | true, true => if 2 * (x.quarters * two % ten) < ten then some c else some (c + 1)
  | true, false => some c
  | false, true => some (c + 1)
  | false, false => none

/-- Digits and decimal exponent of the shortest decimal that reads back as `x`: the coarsest grid
with such a decimal has it. Finer grids than the last one tried are never needed. -/
def shortest (x : Binary) : Nat × Int :=
  ((List.range 634).findSome? fun (i : Nat) =>
    let p : Int := 309 - i
    (x.onGrid? p).map fun c => (c, p)).getD (0, 0)

end Binary

namespace Decimal

/-- `c * 10 ^ p` in positional notation. -/
def positional (c : Nat) (p : Int) : List Char :=
  let digits := (toString c).toList
  if 0 ≤ p then digits ++ List.replicate p.toNat '0'
  else
    let places := (-p).toNat
    let digits := List.replicate (places + 1 - digits.length) '0' ++ digits
    digits.take (digits.length - places) ++ '.' :: digits.drop (digits.length - places)

/-- The shortest decimal that reads back as `x`, never with an exponent. -/
def text (x : Float) : String :=
  if x.isNaN then "NaN"
  else
    let sign := if x.toBits >>> 63 = 0 then "" else "-"
    if x.isInf then sign ++ "inf"
    else if x == 0 then sign ++ "0"
    else
      let (c, p) := (Binary.ofBits x.toBits).shortest
      sign ++ String.ofList (positional c p)

end Decimal

end Waymark
