/-!
Faults of evaluation. They are ordinary values of the language: a kind and a message.
-/

namespace Lisplet

namespace Fault

inductive Kind where
  | unboundSymbol
  | arityMismatch
  | typeMismatch
  | malformedForm
  | hostFault
  | userRaised
  deriving DecidableEq

def Kind.all : List Kind :=
  [.unboundSymbol, .arityMismatch, .typeMismatch, .malformedForm, .hostFault, .userRaised]

def Kind.text : Kind → String
  | .unboundSymbol => "unbound symbol"
  | .arityMismatch => "arity mismatch"
  | .typeMismatch => "type mismatch"
  | .malformedForm => "malformed form"
  | .hostFault => "host fault"
  | .userRaised => "error"

/-- The name of a kind in exchanged data. -/
def Kind.tag : Kind → String
  | .unboundSymbol => "unbound_symbol"
  | .arityMismatch => "arity_mismatch"
  | .typeMismatch => "type_mismatch"
  | .malformedForm => "malformed_form"
  | .hostFault => "host_fault"
  | .userRaised => "user_raised"

def Kind.ofTag? (tag : String) : Option Kind := Kind.all.find? (·.tag == tag)

end Fault

structure Fault where
  kind : Fault.Kind
  message : String
  deriving DecidableEq

def Fault.text (f : Fault) : String := s!"{f.kind.text}: {f.message}"

end Lisplet
