import Lisplet.Number.Decimal
import Lisplet.Text.Quoted

/-!
Atoms: what stands in a source text without parentheses, and the marks that turn a list into data.
-/

namespace Lisplet

/-- The name of a symbol. -/
abbrev Name := String

/-- Whether a list is code or data, and which mark makes it data. -/
inductive Quoting where
  | plain
  | quoted
  | quasi
  deriving DecidableEq

/-- The mark in front of a list. -/
def Quoting.mark : Quoting → String
  | .plain => ""
  | .quoted => "'"
  | .quasi => "`"

inductive Atom where
  | int (n : Int64)
  | float (x : Float)
  | bool (b : Bool)
  | str (s : String)
  | sym (name : Name)
  deriving DecidableEq

def boolText (b : Bool) : String := if b then "#t" else "#f"

/-- The text of an atom in messages. A whole double has no point here. -/
def Atom.text : Atom → String
  | .int n => Int.repr n.toInt
  | .float x => (Binary.ofFloat x).shortestText
  | .bool b => boolText b
  | .str s => Text.quote s
  | .sym name => name

/-- Marks for data are the two quoting modes other than `plain`. -/
inductive Mark where
  | quote
  | quasi
  deriving DecidableEq

def Mark.quoting : Mark → Quoting
  | .quote => .quoted
  | .quasi => .quasi

end Lisplet
