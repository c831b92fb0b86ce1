/-!
Doubles taken apart: a finite double is an integer mantissa times a power of two. Remainder is
computed on these integers, where it is exact.
-/

namespace Lisplet

inductive Binary where
  | nan
  | infinite (negative : Bool)
  | finite (negative : Bool) (mantissa : Nat) (exponent : Int)
  deriving DecidableEq

namespace Binary

def twoTo (n : Nat) : Nat := Nat.pow 2 n

/-- Sign, eleven bits of exponent and 52 bits of fraction; a zero exponent field has no hidden bit. -/
def ofFloat (x : Float) : Binary :=
  let bits := x.toBits.toNat
  let negative := decide (twoTo 63 ≤ bits)
  let field : Nat := bits / twoTo 52 % twoTo 11
  let fraction := bits % twoTo 52
  if field = 2047 then
    if fraction = 0 then .infinite negative else .nan
  else if field = 0 then .finite negative fraction (-1074)
  else .finite negative (twoTo 52 + fraction) (field - 1075)

/-- The bits of `mantissa * 2 ^ exponent`, for a mantissa below 2 ^ 53 and an exponent that the
format reaches. -/
def magnitudeBits (mantissa : Nat) (exponent : Int) : Nat :=
  let top := exponent + mantissa.log2
  if mantissa = 0 then 0
  else if top < -1022 then mantissa * twoTo (exponent + 1074).toNat
  else (top + 1023).toNat * twoTo 52 + (mantissa * twoTo (52 - mantissa.log2) - twoTo 52)

def toFloat : Binary → Float
  | .nan => 0.0 / 0.0
  | .infinite negative => if negative then -1.0 / 0.0 else 1.0 / 0.0
  | .finite negative mantissa exponent =>
    let magnitude := magnitudeBits mantissa exponent
    Float.ofBits (UInt64.ofNat (if negative then twoTo 63 + magnitude else magnitude))

/-- The whole number that `mantissa * 2 ^ exponent` is, if it has no fraction. -/
def whole? (mantissa : Nat) (exponent : Int) : Option Nat :=
  if 0 ≤ exponent then some (mantissa * twoTo exponent.toNat)
  else if mantissa % twoTo (-exponent).toNat = 0 then some (mantissa / twoTo (-exponent).toNat)
  else none

/-- The remainder of the truncated quotient. It has the sign of the dividend, zero included, and is
always a double itself. -/
def remainder (a b : Float) : Float :=
  match ofFloat a, ofFloat b with
  | .finite negative m p, .finite _ n q =>
    if n = 0 then toFloat .nan
    else
      let e := min p q
      toFloat (.finite negative (m * twoTo (p - e).toNat % (n * twoTo (q - e).toNat)) e)
  | .finite _ _ _, .infinite _ => a
  | _, _ => toFloat .nan

end Binary

end Lisplet
