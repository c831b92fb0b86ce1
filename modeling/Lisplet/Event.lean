import Lisplet.Value.Printer

/-!
What evaluation tells about its steps when tracing is on, and what a session tells when it is ready.
-/

namespace Lisplet

inductive Event where
  /-- A plain list is about to be evaluated. -/
  | reduce (cells : List Value)
  /-- A closure is applied. -/
  | apply (formals : List Name) (body : Value) (captured : List (Name × Value))
  | define (name : Name)
  | branch (clause : Value)
  | logic (op : Connective) (operands : List Value)
  /-- A builtin is called with a number of arguments. -/
  | call (b : Builtin) (count : Nat)
  /-- The prelude is loaded, and the global frame has a number of bindings. -/
  | ready (bindings : Nat)

namespace Event

/-- Where an event comes from. -/
def target : Event → String
  | .ready _ => "eta_eval::interpreter"
  | _ => "eta::eval"

/-- The fields of a step: its kind and the text of what it is about. -/
def step (kind text : String) : List (String × String) := [("step", kind), ("node", text)]

def details : Event → List (String × String)
  | .reduce cells => step "s-expression" (Value.expr .plain cells).text
  | .apply formals body captured => step "apply" (Value.lambda formals body captured).text
  | .define name => step "define" name
  | .branch clause => step "if" clause.text
  | .logic op operands => step op.name (Value.logic op operands).text
  | .call b count => [("message", "call"), ("builtin", b.name), ("args", Nat.repr count)]
  | .ready bindings => [("message", "prelude loaded"), ("bindings", Nat.repr bindings)]

/-- All fields of an event, in the order in which they are told. -/
def fields (e : Event) : List (String × String) :=
  [("level", "DEBUG"), ("target", e.target)] ++ e.details

end Event

end Lisplet
