import Lisplet.Text.Blank

/-!
Settings of a session.
-/

namespace Lisplet

structure Context where
  /-- Whether evaluation tells its steps. -/
  trace : Bool
  deriving DecidableEq

namespace Context

def default : Context := ⟨false⟩

/-- The words that switch a setting on, in any case and with blanks around them. -/
def isOn (setting : String) : Bool :=
  ["1", "true", "on", "yes"].contains (String.ofList ((Text.trim setting.toList).map Char.toLower))

/-- The context for a setting that may be missing. -/
def ofSetting : Option String → Context
  | some setting => ⟨isOn setting⟩
  | none => default

end Context

end Lisplet
