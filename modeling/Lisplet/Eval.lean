import Lisplet.Env
import Lisplet.Event

/-!
Computations in an environment. They may extend the innermost frame, tell events, and run out of
depth; faults of the language are values and do not show here.
-/

namespace Lisplet

structure Outcome (α : Type) where
  value : α
  env : Env
  events : List Event

/-- A computation in an environment. Its result is missing only if the depth did not suffice. -/
def Eval (α : Type) : Type := Env → Option (Outcome α)

namespace Eval

variable {α β : Type}

protected def pure (a : α) : Eval α := fun env => some ⟨a, env, []⟩

/-- One computation after another: the second starts where the first ended. -/
protected def bind (x : Eval α) (f : α → Eval β) : Eval β := fun env =>
  match x env with
  | none => none
  | some first =>
    match f first.value first.env with
    | none => none
    | some second => some ⟨second.value, second.env, first.events ++ second.events⟩

instance : Monad Eval where
  pure := Eval.pure
  bind := Eval.bind

/-- The computation that has no depth left. -/
def exhausted : Eval α := fun _ => none

/-- Something read off the environment. -/
def reading (f : Env → α) : Eval α := fun env => some ⟨f env, env, []⟩

/-- Binds a name in the innermost frame. -/
def assign (name : Name) (value : Value) : Eval Unit := fun env =>
  some ⟨(), env.bind name value, []⟩

/-- Tells an event if tracing is on. -/
def tell (e : Event) : Eval Unit := fun env =>
  some ⟨(), env, if env.context.trace then [e] else []⟩

/-- Runs a computation under a new innermost frame, which is dropped at the end. -/
def within (frame : Frame) (x : Eval α) : Eval α := fun env =>
  match x (env.enclose frame) with
  | none => none
  | some inner => some ⟨inner.value, env, inner.events⟩

/-- The values of several computations, from left to right. -/
def all (f : α → Eval β) : List α → Eval (List β)
  | [] => pure []
  | a :: rest => do
    let b ← f a
    let bs ← all f rest
    pure (b :: bs)

end Eval

end Lisplet
