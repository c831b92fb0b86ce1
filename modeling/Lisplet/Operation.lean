import Lisplet.Number

/-!
What the builtins compute. All of them but two need their arguments only; `eval` and `symbols`, which
need an environment, are left to evaluation.
-/

namespace Lisplet

/-- A value, or a fault as a value. -/
def Value.ofExcept : Except Fault Value → Value
  | .ok value => value
  | .error fault => .error fault

namespace Comparison

/-- Whether the relation holds between two elements of a linear order. -/
def between [LT α] [DecidableLT α] (op : Comparison) (a b : α) : Bool :=
  match op with
  | .lt => decide (a < b)
  | .gt => decide (b < a)
  | .le => !decide (b < a)
  | .ge => !decide (a < b)

/-- Between doubles, where nothing holds of a NaN. -/
def betweenFloats (op : Comparison) (x y : Float) : Bool :=
  match op with
  | .lt => x < y
  | .gt => y < x
  | .le => x ≤ y
  | .ge => y ≤ x

/-- Two integers, two strings, or two numbers compared as doubles. -/
def apply (op : Comparison) : Value → Value → Except Fault Bool
  | .int m, .int n => .ok (op.between m n)
  | .str s, .str t => .ok (op.between s t)
  | a, b => do
    let x ← Number.ofValue op.name a
    let y ← Number.ofValue op.name b
    .ok (op.betweenFloats x.toFloat y.toFloat)

end Comparison

namespace Operation

/-- The fault of a call with a wrong number of arguments. -/
def wrongCount (name : Name) (arity : Arity) (count : Nat) : Fault :=
  ⟨.malformedForm, s!"'{name}' expects {arity.text}, got {count}"⟩

/-- The cells of a list that has some. -/
def someCells (name : Name) (v : Value) : Except Fault (Value × List Value) :=
  match v.cells? with
  | none => .error ⟨.typeMismatch, s!"'{name}' expects a list, got {v.described}"⟩
  | some [] => .error ⟨.malformedForm, s!"'{name}' of an empty list"⟩
  | some (cell :: rest) => .ok (cell, rest)

/-- What an argument adds to a joined list: its cells, or itself if it is no list. -/
def spliced (v : Value) : List Value := v.cells?.getD [v]

/-- An argument in the message of a raised error; strings stand there without quotes. -/
def messageText : Value → String
  | .str s => s
  | v => v.text

/-- The result of an operation on error-free arguments whose number its arity accepts. -/
def compute : Operation → List Value → Value
  | .reduce op, first :: rest =>
    .ofExcept do
      let acc ← Number.ofValue op.name first
      let total ← Number.fold op acc rest
      .ok total.value
  | .equal, [a, b] => .bool (a.equal b)
  | .distinct, [a, b] => .bool (!a.equal b)
  | .compare op, [a, b] => .ofExcept ((op.apply a b).map .bool)
  | .head, [v] => .ofExcept ((someCells "head" v).map fun (cell, _) => .quoted [cell])
  | .tail, [v] => .ofExcept ((someCells "tail" v).map fun (_, rest) => .quoted rest)
  | .list, args => .quoted args
  | .join, args => .quoted (args.flatMap spliced)
  | .raise, args => .error ⟨.userRaised, " ".intercalate (args.map messageText)⟩
  | .count, args => .int (Int64.ofNat args.length)
  | _, _ => .nothing

end Operation

end Lisplet
