import Lisplet.Atom
import Lisplet.Position

/-!
Tokens: the parts of a source text that mean something, each with the stretch that it fills. The end
of the input is a token of its own.
-/

namespace Lisplet

namespace Token

inductive Kind where
  | lparen
  | rparen
  | mark (m : Mark)
  | atom (a : Atom)
  | eof
  deriving DecidableEq

def Kind.text : Kind → String
  | .lparen => "("
  | .rparen => ")"
  | .mark m => m.quoting.mark
  | .atom a => a.text
  | .eof => "end of input"

end Token

structure Token where
  kind : Token.Kind
  span : Span
  deriving DecidableEq

end Lisplet
