import Lisplet.Context
import Lisplet.Value.Printer

/-!
Frames and environments. A frame binds names, kept in ascending order, so that equal bindings are
equal frames. An environment is a chain of frames of which only the innermost can change.
-/

namespace Lisplet

abbrev Frame := List (Name × Value)

namespace Frame

def get? : Frame → Name → Option Value
  | [], _ => none
  | (key, value) :: rest, name => if name = key then some value else get? rest name

/-- Binds a name, in place of an older binding of it. -/
def bind (name : Name) (value : Value) : Frame → Frame
  | [] => [(name, value)]
  | (key, old) :: rest =>
    if name = key then (name, value) :: rest
    else if name < key then (name, value) :: (key, old) :: rest
    else (key, old) :: bind name value rest

/-- Binds each name of a list in turn; the last binding of a name stays. -/
def bindAll (frame : Frame) (bindings : List (Name × Value)) : Frame :=
  bindings.foldl (fun f b => f.bind b.1 b.2) frame

def ofList (bindings : List (Name × Value)) : Frame := bindAll [] bindings

def names (frame : Frame) : List Name := frame.map Prod.fst

/-- The names are strictly ascending. -/
def Sorted (frame : Frame) : Prop := frame.names.Pairwise (· < ·)

end Frame

structure Env where
  frame : Frame
  outer : List Frame
  context : Context

/-- Adds a name to an ascending list of names. -/
def insertName (name : Name) : List Name → List Name
  | [] => [name]
  | key :: rest =>
    if name = key then key :: rest
    else if name < key then name :: key :: rest
    else key :: insertName name rest

namespace Env

def empty (context : Context) : Env := ⟨[], [], context⟩

/-- The frames from the innermost outwards. -/
def frames (env : Env) : List Frame := env.frame :: env.outer

/-- The innermost binding of a name. -/
def get? (env : Env) (name : Name) : Option Value := env.frames.findSome? (·.get? name)

/-- A name without binding is a fault. -/
def lookup (env : Env) (name : Name) : Value :=
  (env.get? name).getD (.error ⟨.unboundSymbol, name⟩)

def bind (env : Env) (name : Name) (value : Value) : Env :=
  { env with frame := env.frame.bind name value }

/-- Binds a value to a key that has to be a symbol. -/
def bindChecked (env : Env) (key value : Value) : Except Fault Env :=
  match key with
  | .sym name => .ok (env.bind name value)
  | other => .error ⟨.typeMismatch, s!"cannot bind a value to non-symbol {other.described}"⟩

/-- A new innermost frame. -/
def enclose (frame : Frame) (env : Env) : Env := ⟨frame, env.frames, env.context⟩

/-- Without the innermost frame, unless it is the only one. -/
def leave (env : Env) : Env :=
  match env.outer with
  | [] => env
  | frame :: outer => ⟨frame, outer, env.context⟩

/-- All names with a binding, in ascending order. -/
def symbols (env : Env) : List Name :=
  (env.frames.flatMap Frame.names).foldr insertName []

end Env

end Lisplet
