import Lisplet.Eval
import Lisplet.Operation

/-!
Evaluation. `step` says how a value is evaluated once it is known how its parts are; `evaluate` ties
the knot with a bound on the depth. More depth never changes a result, it only finds more of them.
-/

namespace Lisplet

namespace Value

/-- Several results as one value: none is the empty list, one is itself. -/
def collapse : List Value → Value
  | [] => .expr .plain []
  | [value] => value
  | values => .seq values

end Value

namespace Operation

/-- A list given to `eval` is code. -/
def asCode : Value → Value
  | .expr _ cells => .expr .plain cells
  | v => v

/-- Carries an operation out; `evaluate` is for the one that turns data back into code. -/
def run (evaluate : Value → Eval Value) : Operation → List Value → Eval Value
  | .eval, [v] => evaluate (asCode v)
  | .symbols, _ => Eval.reading fun env => .quoted (env.symbols.map .sym)
  | op, args => pure (op.compute args)

end Operation

namespace Builtin

/-- Calls a builtin: a fault among the arguments wins, then their number is checked. -/
def call (evaluate : Value → Eval Value) (b : Builtin) (args : List Value) : Eval Value :=
  match Value.firstFault? args with
  | some fault => pure (.error fault)
  | none =>
    if b.arity.accepts args.length then b.operation.run evaluate args
    else pure (.error (Operation.wrongCount b.name b.arity args.length))

/-- A call that evaluation makes, which is told. -/
def calledWith (evaluate : Value → Eval Value) (b : Builtin) (args : List Value) : Eval Value := do
  Eval.tell (.call b args.length)
  b.call evaluate args

end Builtin

namespace Closure

/-- The fault of a call with more arguments than formals. -/
def tooMany (formals : List Name) (body : Value) (captured : Frame) (count : Nat) : Fault :=
  let closure := (Value.lambda formals body captured).text
  ⟨.arityMismatch, s!"{closure} takes {Arity.arguments formals.length}, got {count}"⟩

/-- The captured frame with the formals bound to as many arguments as there are. -/
def scope (formals : List Name) (captured : Frame) (args : List Value) : Frame :=
  captured.bindAll (formals.zip args)

/-- Applies a closure. All arguments: the body is evaluated over the caller's frames. Fewer: a closure
that waits for the rest. More: a fault. -/
def apply (evaluate : Value → Eval Value) (formals : List Name) (body : Value) (captured : Frame)
    (args : List Value) : Eval Value :=
  if formals.length < args.length then pure (.error (tooMany formals body captured args.length))
  else do
    Eval.tell (.apply formals body captured)
    if args.length = formals.length then
      Eval.within (scope formals captured args) (evaluate body)
    else pure (.lambda (formals.drop args.length) body (scope formals captured args))

end Closure

namespace Value

/-- Evaluates a list of several cells, whose values are given: the first that is not `nothing` is the
head, and it is applied if it can be. A fault among the values wins. -/
def combine (evaluate : Value → Eval Value) (values : List Value) : Eval Value :=
  match values.filter (!·.isNothing) with
  | [] => pure .nothing
  | .lambda formals body captured :: args =>
    match firstFault? args with
    | some fault => pure (.error fault)
    | none => Closure.apply evaluate formals body captured args
  | .builtin b :: args => b.calledWith evaluate args
  | items =>
    match firstFault? items with
    | some fault => pure (.error fault)
    | none => pure (collapse items)

/-- Evaluates a plain list. A builtin without arguments is called when it stands alone. -/
def reduce (evaluate : Value → Eval Value) : List Value → Eval Value
  | [] => pure (.expr .plain [])
  | [cell] => do
    match ← evaluate cell with
    | .builtin b => if b.takesNoArguments then b.calledWith evaluate [] else pure (.builtin b)
    | value => pure value
  | cells => do combine evaluate (← Eval.all evaluate cells)

/-- The fault of a value where a boolean has to be. -/
def notBoolean (place : String) (v : Value) : Fault :=
  ⟨.typeMismatch, s!"{place} must be a boolean, got {v.described}"⟩

/-- Evaluates operands until one decides. -/
def connect (evaluate : Value → Eval Value) (op : Connective) : List Value → Eval Value
  | [] => pure (.bool !op.deciding)
  | operand :: rest => do
    match ← evaluate operand with
    | .bool b => if b = op.deciding then pure (.bool b) else connect evaluate op rest
    | .error fault => pure (.error fault)
    | other => pure (.error (notBoolean s!"'{op.name}' operand" other))

/-- Evaluates one of two branches. -/
def choose (evaluate : Value → Eval Value) (clause yes no : Value) : Eval Value := do
  match ← evaluate clause with
  | .bool true => evaluate yes
  | .bool false => evaluate no
  | .error fault => pure (.error fault)
  | other => pure (.error (notBoolean "'if' clause" other))

/-- Binds the value of a definition, unless it is a fault. -/
def settle (name : Name) : Value → Eval Value
  | .error fault => pure (.error fault)
  | value => do
    Eval.assign name value
    pure .nothing

/-- How a value is evaluated, given how its parts are. -/
def step (evaluate : Value → Eval Value) : Value → Eval Value
  | .seq nodes => do return collapse (← Eval.all evaluate nodes)
  | .sym name => Eval.reading (·.lookup name)
  | .define name value => do
    Eval.tell (.define name)
    settle name (← evaluate value)
  | .cond clause yes no => do
    Eval.tell (.branch clause)
    choose evaluate clause yes no
  | .logic op operands => do
    Eval.tell (.logic op operands)
    connect evaluate op operands
  | .expr .plain cells => do
    Eval.tell (.reduce cells)
    reduce evaluate cells
  | value => pure value

/-- Evaluates a value, nesting at most `depth` evaluations. -/
def evaluate : Nat → Value → Eval Value
  | 0 => fun _ => Eval.exhausted
  | depth + 1 => step (evaluate depth)

end Value

end Lisplet
