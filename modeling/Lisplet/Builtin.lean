import Lisplet.Atom

/-!
Builtin functions as data: a name, the argument counts that are accepted, and the operation that the
host performs. The operations themselves are carried out elsewhere.
-/

namespace Lisplet

inductive Arity where
  | exactly (n : Nat)
  | atLeast (n : Nat)
  deriving DecidableEq

namespace Arity

def accepts : Arity → Nat → Bool
  | .exactly n, count => count == n
  | .atLeast n, count => n ≤ count

/-- A count of arguments in words. -/
def arguments (n : Nat) : String := if n = 1 then "1 argument" else s!"{n} arguments"

def text : Arity → String
  | .exactly n => s!"exactly {arguments n}"
  | .atLeast n => s!"at least {arguments n}"

end Arity

inductive Arithmetic where
  | add
  | sub
  | mul
  | div
  | rem
  | max
  | min
  deriving DecidableEq

def Arithmetic.name : Arithmetic → Name
  | .add => "+"
  | .sub => "-"
  | .mul => "*"
  | .div => "/"
  | .rem => "%"
  | .max => "max"
  | .min => "min"

inductive Comparison where
  | lt
  | gt
  | le
  | ge
  deriving DecidableEq

def Comparison.name : Comparison → Name
  | .lt => "<"
  | .gt => ">"
  | .le => "<="
  | .ge => ">="

/-- What a builtin does. `count` is for hosts that only want to see a call happen: it returns the
number of its arguments. -/
inductive Operation where
  | reduce (op : Arithmetic)
  | equal
  | distinct
  | compare (op : Comparison)
  | head
  | tail
  | list
  | join
  | eval
  | raise
  | symbols
  | count
  deriving DecidableEq

structure Builtin where
  name : Name
  arity : Arity
  operation : Operation
  deriving DecidableEq

namespace Builtin

/-- Two builtins are the same if they go by the same name with the same arity. -/
def same (a b : Builtin) : Bool := a.name == b.name && a.arity == b.arity

def takesNoArguments (b : Builtin) : Bool := b.arity == .exactly 0

def ofArithmetic (op : Arithmetic) : Builtin := ⟨op.name, .atLeast 1, .reduce op⟩

def ofComparison (op : Comparison) : Builtin := ⟨op.name, .exactly 2, .compare op⟩

/-- The builtins that every global frame starts with. -/
def catalogue : List Builtin :=
  [ofArithmetic .add, ofArithmetic .sub, ofArithmetic .mul, ofArithmetic .div, ofArithmetic .rem,
   ofArithmetic .max, ofArithmetic .min,
   ⟨"==", .exactly 2, .equal⟩, ⟨"!=", .exactly 2, .distinct⟩,
   ofComparison .lt, ofComparison .gt, ofComparison .le, ofComparison .ge,
   ⟨"head", .exactly 1, .head⟩, ⟨"tail", .exactly 1, .tail⟩,
   ⟨"list", .atLeast 0, .list⟩, ⟨"join", .atLeast 1, .join⟩,
   ⟨"eval", .exactly 1, .eval⟩, ⟨"error", .atLeast 0, .raise⟩,
   ⟨"symbols", .exactly 0, .symbols⟩]

def find? (name : Name) : Option Builtin := catalogue.find? (·.name == name)

end Builtin

end Lisplet
