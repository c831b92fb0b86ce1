import Lisplet.Diagnostic
import Lisplet.Source
import Lisplet.Token

/-!
What can be wrong with a source text. A complaint is a cause; its code, wording and advice are
functions of it.
-/

namespace Lisplet

inductive Complaint where
  | unexpectedCharacter (c : Char)
  | unterminatedString
  | numberOutOfRange (literal : String)
  | unknownLiteral (literal : String)
  | strayClose
  | unexpectedEnd
  | danglingMark (mark : Mark) (found : Token.Kind)
  | unclosed (paren : Span)
  | branchCount (count : Nat)
  | bindingTarget (form : Name) (found : Token.Kind)
  | severalNames (form : Name)
  | unnamedFunction
  | functionWithoutParameters (name : Name)
  | lambdaWithoutParameters
  | parameterList (form : Name) (found : Token.Kind)
  | parameterName (form : Name) (found : Token.Kind)
  | bodyCount (form : Name) (count : Nat)
  | noOperands (form : Name)
  | letEntry (found : Token.Kind)
  | letEmpty
  | letName (found : Token.Kind)
  | letValueCount (name : Name) (count : Nat)

namespace Complaint

/-- Codes below 130 are about lexemes, those from 130 about their arrangement. -/
def code : Complaint → Nat
  | .unexpectedCharacter _ => 100
  | .unterminatedString => 101
  | .numberOutOfRange _ => 102
  | .unknownLiteral _ => 103
  | .strayClose | .unexpectedEnd | .danglingMark _ _ => 130
  | .unclosed _ => 131
  | _ => 140

def message : Complaint → String
  | .unexpectedCharacter c => s!"unexpected character '{c}'"
  | .unterminatedString => "unterminated string literal"
  | .numberOutOfRange literal => s!"number literal '{literal}' is out of range"
  | .unknownLiteral literal => s!"unknown literal '{literal}'"
  | .strayClose => "unexpected ')'"
  | .unexpectedEnd => "unexpected end of input"
  | .danglingMark mark found => s!"expected '(' after '{mark.quoting.mark}', got '{found.text}'"
  | .unclosed paren => s!"unclosed '(' opened at {paren.text}"
  | .branchCount count => s!"'if' takes exactly 3 forms, got {count}"
  | .bindingTarget form found => s!"'{form}' expects a symbol to bind, got '{found.text}'"
  | .severalNames form => s!"'{form}' with a parenthesised name takes exactly one symbol"
  | .unnamedFunction => "'defun' needs a function name"
  | .functionWithoutParameters name => s!"'defun' of '{name}' declares no parameters"
  | .lambdaWithoutParameters => "'lambda' declares no parameters"
  | .parameterList form found => s!"'{form}' expects a parameter list, got '{found.text}'"
  | .parameterName form found => s!"'{form}' parameter names must be symbols, got '{found.text}'"
  | .bodyCount form count => s!"'{form}' takes exactly one body form, got {count}"
  | .noOperands form => s!"'{form}' needs at least one operand"
  | .letEntry found => s!"'let' expects (name value) pairs, got '{found.text}'"
  | .letEmpty => "'let' needs at least one binding"
  | .letName found => s!"'let' binding must start with a symbol, got '{found.text}'"
  | .letValueCount name count => s!"'let' binding of '{name}' takes exactly one value, got {count}"

def suggestion : Complaint → Option String
  | .unknownLiteral _ => some "booleans are written #t and #f"
  | .danglingMark _ _ => some "quote marks apply to parenthesised lists only"
  | .unclosed _ => some "add the missing ')'"
  | .branchCount _ => some "write (if condition then else)"
  | .bindingTarget _ _ => some "write (define name expression)"
  | .severalNames _ => some "use defun to define a function: (defun (name x y) body)"
  | .unnamedFunction => some "write (defun (name x y) body)"
  | .functionWithoutParameters _ =>
    some "a function takes at least one parameter: (defun (name x) body)"
  | .lambdaWithoutParameters => some "a lambda takes at least one parameter: (lambda (x) body)"
  | .parameterList _ _ => some "parameters are written in parentheses: (x y)"
  | .bodyCount _ _ => some "wrap several forms in a list"
  | .noOperands _ => some "write (and a b) or (or a b)"
  | .letEntry _ | .letEmpty | .letValueCount _ _ => some "write (let (x 1) (y 2))"
  | _ => none

end Complaint

/-- A complaint and the stretch of source that it is about. -/
structure Problem where
  complaint : Complaint
  span : Span

/-- The diagnostic that shows a problem beside the line on which it starts. -/
def Source.diagnose (s : Source) (p : Problem) : Diagnostic where
  file := s.name
  code := p.complaint.code
  message := p.complaint.message
  span := p.span
  sourceLine := (s.line? p.span.first.line).getD ""
  suggestion := p.complaint.suggestion

end Lisplet
