import Lisplet.Value.Equality
import Lisplet.Value.Printer

/-!
Arithmetic on integers and doubles. Integers never wrap: a result outside 64 bits is a fault. As
soon as one operand is a double, so is the result.
-/

namespace Lisplet

inductive Number where
  | int (n : Int64)
  | float (x : Float)

namespace Number

def toFloat : Number → Float
  | .int n => floatOfInt n
  | .float x => x

def value : Number → Value
  | .int n => .int n
  | .float x => .float x

def isZero : Number → Bool
  | .int n => n == 0
  | .float x => x == 0.0

/-- The number that a value is, for the operation called `name`. -/
def ofValue (name : Name) : Value → Except Fault Number
  | .int n => .ok (.int n)
  | .float x => .ok (.float x)
  | other => .error ⟨.typeMismatch, s!"'{name}' expects numbers, got {other.described}"⟩

def overflow (name : Name) : Fault := ⟨.hostFault, s!"integer overflow in '{name}'"⟩

def divisionByZero : Fault := ⟨.hostFault, "division by zero"⟩

def moduloByZero : Fault := ⟨.hostFault, "modulo by zero"⟩

/-- An exact result as an integer of 64 bits. -/
def fit (name : Name) (n : Int) : Except Fault Number :=
  if Int64.minValue.toInt ≤ n ∧ n ≤ Int64.maxValue.toInt then .ok (.int (Int64.ofInt n))
  else .error (overflow name)

/-- An operation that is exact on integers and rounds on doubles. -/
def exact (name : Name) (onInts : Int → Int → Int) (onFloats : Float → Float → Float) :
    Number → Number → Except Fault Number
  | .int a, .int b => fit name (onInts a.toInt b.toInt)
  | a, b => .ok (.float (onFloats a.toFloat b.toFloat))

/-- Division always gives a double. -/
def div (a b : Number) : Except Fault Number :=
  if b.isZero then .error divisionByZero else .ok (.float (a.toFloat / b.toFloat))

/-- The truncated remainder moved to the sign of the divisor. -/
def floorInt (a b : Int64) : Int64 :=
  let r := a % b
  if r ≠ 0 ∧ (decide (r < 0)) ≠ (decide (b < 0)) then r + b else r

def floorFloat (a b : Float) : Float :=
  let r := Binary.remainder a b
  if r != 0.0 && (decide (r < 0.0)) != (decide (b < 0.0)) then r + b else r

/-- Floored modulo: the result takes the sign of the divisor. -/
def rem (a b : Number) : Except Fault Number :=
  if b.isZero then .error moduloByZero
  else match a, b with
    | .int a, .int b =>
      if a = Int64.minValue ∧ b = -1 then .error (overflow Arithmetic.rem.name)
      else .ok (.int (floorInt a b))
    | a, b => .ok (.float (floorFloat a.toFloat b.toFloat))

/-- The operation between two numbers. Maximum and minimum compare as doubles and keep the left one
unless the right one is beyond it. -/
def apply : Arithmetic → Number → Number → Except Fault Number
  | .add => exact Arithmetic.add.name (· + ·) (· + ·)
  | .sub => exact Arithmetic.sub.name (· - ·) (· - ·)
  | .mul => exact Arithmetic.mul.name (· * ·) (· * ·)
  | .div => div
  | .rem => rem
  | .max => fun a b => .ok (if a.toFloat < b.toFloat then b else a)
  | .min => fun a b => .ok (if b.toFloat < a.toFloat then b else a)

/-- Takes in the arguments from left to right; the first fault ends it. -/
def fold (op : Arithmetic) : Number → List Value → Except Fault Number
  | acc, [] => .ok acc
  | acc, v :: rest => do
    let next ← ofValue op.name v
    let acc ← apply op acc next
    fold op acc rest

end Number

end Lisplet
