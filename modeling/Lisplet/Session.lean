import Lisplet.Evaluate
import Lisplet.Prelude

/-!
Sessions: one global environment against which successive sources are run.
-/

namespace Lisplet

namespace Value

/-- Results of top-level forms as one value, without those of definitions. -/
def pack (values : List Value) : Value :=
  match values.filter (!·.isNothing) with
  | [] => .nothing
  | [value] => value
  | kept => .seq kept

/-- A sequence of results without those of definitions. -/
def withoutNothing : Value → Value
  | .seq items => pack items
  | v => v

end Value

namespace Session

/-- What the prelude leaves of an environment, and what loading it tells. -/
def loaded (env : Env) : Option (Outcome Value) → Env × List Event
  | some o => (o.env, o.events ++ [.ready o.env.frame.length])
  | none => (env, [])

/-- A fresh session, and what loading the prelude tells. -/
def start (context : Context) : Env × List Event :=
  let env := Env.initial context
  loaded env (Value.evaluate Prelude.depth (.seq Prelude.forms) env)

/-- The name under which a source that is run shows in reports. -/
def sourceName : String := "<input>"

/-- Reads a source and evaluates its forms in turn. A source with problems is not evaluated at all. -/
def execute (depth : Nat) (text : String) : Eval (Except Report Value) :=
  let program := Program.ofText text
  match program.problems, program.forms with
  | [], [] => pure (.ok .nothing)
  | [], forms => do return .ok (← Value.evaluate depth (.seq forms)).withoutNothing
  | problems, _ => pure (.error ((Source.mk sourceName text).report problems))

end Session

end Lisplet
