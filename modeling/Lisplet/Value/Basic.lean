import Lisplet.Builtin
import Lisplet.Fault

/-!
Values, which are also the programs: reading gives values, evaluating a value gives a value. The
special forms have constructors of their own, so evaluation never looks a form up by name.
-/

namespace Lisplet

inductive Connective where
  | and
  | or
  deriving DecidableEq

namespace Connective

def name : Connective → Name
  | .and => "and"
  | .or => "or"

/-- The operand that settles the whole form. -/
def deciding : Connective → Bool
  | .and => false
  | .or => true

end Connective

inductive Value where
  | int (n : Int64)
  | float (x : Float)
  | bool (b : Bool)
  | str (s : String)
  | sym (name : Name)
  /-- A list; `plain` lists are code, the others are data. -/
  | expr (mode : Quoting) (cells : List Value)
  /-- A closure: the formals it still waits for, its body, and the arguments it was given so far in
  ascending order of names. -/
  | lambda (formals : List Name) (body : Value) (captured : List (Name × Value))
  | define (name : Name) (value : Value)
  | cond (clause yes no : Value)
  | logic (op : Connective) (operands : List Value)
  | builtin (b : Builtin)
  /-- The results of several forms. -/
  | seq (items : List Value)
  | error (fault : Fault)
  /-- The result of a definition. -/
  | nothing

def Atom.value : Atom → Value
  | .int n => .int n
  | .float x => .float x
  | .bool b => .bool b
  | .str s => .str s
  | .sym name => .sym name

namespace Value

/-- A list that is data. -/
def quoted (cells : List Value) : Value := .expr .quoted cells

def isNothing : Value → Bool
  | .nothing => true
  | _ => false

def fault? : Value → Option Fault
  | .error fault => some fault
  | _ => none

def isError (v : Value) : Bool := v.fault?.isSome

/-- The leftmost fault among some values. -/
def firstFault? (values : List Value) : Option Fault := values.findSome? fault?

/-- The cells of a list in any mode, or of a sequence. -/
def cells? : Value → Option (List Value)
  | .expr _ cells => some cells
  | .seq items => some items
  | _ => none

def typeName : Value → String
  | .int _ => "integer"
  | .float _ => "float"
  | .bool _ => "boolean"
  | .str _ => "string"
  | .sym _ => "symbol"
  | .expr _ _ => "expression"
  | .lambda _ _ _ => "lambda"
  | .define _ _ => "definition"
  | .cond _ _ _ => "conditional"
  | .logic op _ => op.name
  | .builtin _ => "builtin"
  | .seq _ => "sequence"
  | .error _ => "error"
  | .nothing => "no value"

end Value

end Lisplet
