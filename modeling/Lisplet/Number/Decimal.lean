import Lisplet.Number.Binary

/-!
Decimal text of doubles. `shortest` picks the fewest digits that read back as the same double, and
among those the nearest; all comparisons are between whole numbers.
-/

namespace Lisplet

/-- The number `digits * 10 ^ exponent`. -/
structure Decimal where
  digits : Nat
  exponent : Int
  deriving DecidableEq

namespace Decimal

def tenTo (n : Nat) : Nat := Nat.pow 10 n

def digitCount (n : Nat) : Nat := (Nat.toDigits 10 n).length

/-- The number of digits before the point of `num / den`; for a quotient below one, minus the
number of zeros after it. -/
def pointPlace (num den : Nat) : Int :=
  if den ≤ num then digitCount (num / den)
  else 1 - digitCount ((den - 1) / num)

/-- The reals that read back as one double, as whole numbers over a common denominator. -/
structure Neighbourhood where
  low : Nat
  value : Nat
  high : Nat
  den : Nat
  closed : Bool

/-- Half a unit of the last place on either side, a quarter below a power of two; the ends belong
to it when the mantissa is even. -/
def neighbourhood (mantissa : Nat) (exponent : Int) : Neighbourhood :=
  let below := if mantissa = Binary.twoTo 52 ∧ -1074 < exponent then 1 else 2
  let num := Binary.twoTo (exponent - 2).toNat
  { low := (4 * mantissa - below) * num
    value := 4 * mantissa * num
    high := (4 * mantissa + 2) * num
    den := Binary.twoTo (2 - exponent).toNat
    closed := mantissa % 2 = 0 }

/-- Whether `digits * 10 ^ exponent` reads back as the double. -/
def Neighbourhood.holds (n : Neighbourhood) (d : Decimal) : Bool :=
  let point := d.digits * tenTo d.exponent.toNat * n.den
  let unit := tenTo (-d.exponent).toNat
  if n.closed then n.low * unit ≤ point && point ≤ n.high * unit
  else n.low * unit < point && point < n.high * unit

/-- The better of the two multiples of `10 ^ exponent` around the value; a tie goes up. -/
def Neighbourhood.onGrid (n : Neighbourhood) (exponent : Int) : Option Decimal :=
  let scaled := n.value * tenTo (-exponent).toNat
  let step := n.den * tenTo exponent.toNat
  let down : Decimal := ⟨scaled / step, exponent⟩
  let up : Decimal := ⟨scaled / step + 1, exponent⟩
  match n.holds down, n.holds up with
  | true, true => if 2 * (scaled % step) < step then some down else some up
  | true, false => some down
  | false, true => some up
  | false, false => none

/-- Tries grids from coarse to fine. Seventeen digits always suffice; the first grid holds no digit
of the value and is there for a value just below a power of ten. -/
def Neighbourhood.search (n : Neighbourhood) : Nat → Int → Decimal
  | 0, exponent => ⟨n.value * tenTo (-exponent).toNat / (n.den * tenTo exponent.toNat), exponent⟩
  | fuel + 1, exponent => (n.onGrid exponent).getD (n.search fuel (exponent - 1))

def shortest (mantissa : Nat) (exponent : Int) : Decimal :=
  let n := neighbourhood mantissa exponent
  if mantissa = 0 then ⟨0, 0⟩ else n.search 18 (pointPlace n.value n.den)

/-- Positional text, never with an exponent. -/
def positional (d : Decimal) : String :=
  let digits := Nat.toDigits 10 d.digits
  let places := (-d.exponent).toNat
  let text :=
    if 0 ≤ d.exponent then digits ++ List.replicate d.exponent.toNat '0'
    else if digits.length ≤ places then
      ['0', '.'] ++ List.replicate (places - digits.length) '0' ++ digits
    else digits.take (digits.length - places) ++ '.' :: digits.drop (digits.length - places)
  String.ofList text

/-- The nearest double. Exponents far outside the format are settled by the place of the point. -/
def toFloat (d : Decimal) : Float :=
  let place := digitCount d.digits + d.exponent
  if d.digits = 0 ∨ place < -330 then 0.0
  else if 310 < place then 1.0 / 0.0
  else Float.ofScientific d.digits (d.exponent < 0) d.exponent.natAbs

end Decimal

namespace Binary

/-- The sign in front of the text of a magnitude. -/
def signed (negative : Bool) (text : String) : String := if negative then "-" ++ text else text

/-- Shortest text; a whole number has no point. -/
def shortestText : Binary → String
  | .nan => "NaN"
  | .infinite negative => signed negative "inf"
  | .finite negative mantissa exponent =>
    signed negative (Decimal.shortest mantissa exponent).positional

/-- Text of a double as a value: a whole number shows every digit and `.0`, so that it cannot be
taken for an integer. -/
def text : Binary → String
  | .finite negative mantissa exponent =>
    match whole? mantissa exponent with
    | some n => signed negative (Nat.repr n ++ ".0")
    | none => shortestText (.finite negative mantissa exponent)
  | b => b.shortestText

end Binary

end Lisplet
