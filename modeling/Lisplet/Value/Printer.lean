import Lisplet.Value.Basic

/-!
The text of values.
-/

namespace Lisplet.Value

mutual

def text : Value → String
  | .int n => Int.repr n.toInt
  | .float x => (Binary.ofFloat x).text
  | .bool b => boolText b
  | .str s => Text.quote s
  | .sym name => name
  | .expr mode cells => mode.mark ++ "(" ++ " ".intercalate (texts cells) ++ ")"
  | .lambda formals body _ => "(λ (" ++ " ".intercalate formals ++ ") " ++ body.text ++ ")"
  | .define name value => "(define " ++ name ++ " " ++ value.text ++ ")"
  | .cond clause yes no => "(if " ++ clause.text ++ " " ++ yes.text ++ " " ++ no.text ++ ")"
  | .logic op operands => "(" ++ op.name ++ " " ++ " ".intercalate (texts operands) ++ ")"
  | .builtin b => "<builtin " ++ b.name ++ ">"
  | .seq items => "[" ++ ", ".intercalate (texts items) ++ "]"
  | .error fault => fault.text
  | .nothing => "#<none>"

def texts : List Value → List String
  | [] => []
  | v :: rest => v.text :: texts rest

end

/-- A value and its type, as messages about a wrong value show it. -/
def described (v : Value) : String := s!"{v.text} ({v.typeName})"

end Lisplet.Value
