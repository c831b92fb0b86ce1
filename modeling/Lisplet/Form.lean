import Lisplet.Complaint
import Lisplet.Tree
import Lisplet.Value.Basic

/-!
Forms: trees read as values. A list whose head names a special form must have the parts of that
form; the first part that is wrong, from left to right, is the one problem of the whole tree.
-/

namespace Lisplet

/-- The names that are special at the head of a plain list. -/
inductive SpecialForm where
  | branch
  | define
  | shortDefine
  | function
  | lambda
  | logic (op : Connective)
  | bindings
  deriving DecidableEq

namespace SpecialForm

def all : List SpecialForm :=
  [.branch, .define, .shortDefine, .function, .lambda, .logic .and, .logic .or, .bindings]

def name : SpecialForm → Name
  | .branch => "if"
  | .define => "define"
  | .shortDefine => "def"
  | .function => "defun"
  | .lambda => "lambda"
  | .logic op => op.name
  | .bindings => "let"

def ofName? (name : Name) : Option SpecialForm := all.find? (·.name == name)

end SpecialForm

namespace Form

/-- The closing parenthesis of a group. -/
def closing (paren : Span) : Option Span → Except Problem Span
  | some close => .ok close
  | none => .error ⟨.unclosed paren, paren⟩

/-- The token that comes next in a group of which `items` are left. -/
def upcoming (paren : Span) (close : Option Span) : List Tree → Except Problem Token
  | t :: _ => .ok t.front
  | [] => (closing paren close).map fun span => ⟨.rparen, span⟩

/-- The names in a group of symbols, and where the group closes. -/
def symbols (form : Name) (paren : Span) (close : Option Span) :
    List Tree → Except Problem (List Name × Span)
  | [] => (closing paren close).map fun span => ([], span)
  | .atom (.sym name) _ :: rest =>
    (symbols form paren close rest).map fun (names, span) => (name :: names, span)
  | t :: _ => .error ⟨.parameterName form t.front.kind, t.front.span⟩

/-- The name that a definition binds: a symbol, or one symbol in parentheses. -/
def target (form : Name) (paren : Span) (close : Option Span) : List Tree → Except Problem Name
  | .atom (.sym name) _ :: _ => .ok name
  | .group none inner items last :: _ => do
    match ← symbols form inner last items with
    | ([name], _) => .ok name
    | (_, span) => .error ⟨.severalNames form, paren.merge span⟩
  | items => do
    let found ← upcoming paren close items
    .error ⟨.bindingTarget form found.kind, found.span⟩

/-- A parameter list, and where it closes. -/
def parameters (form : Name) (paren : Span) (close : Option Span) :
    List Tree → Except Problem (List Name × Span)
  | .group none inner items last :: _ => symbols form inner last items
  | items => do
    let found ← upcoming paren close items
    .error ⟨.parameterList form found.kind, found.span⟩

/-- The name and the parameters of a named function. -/
def signature (paren : Span) (close : Option Span) (items : List Tree) :
    Except Problem (Name × List Name) := do
  match ← parameters SpecialForm.function.name paren close items with
  | ([], span) => .error ⟨.unnamedFunction, paren.merge span⟩
  | ([name], span) => .error ⟨.functionWithoutParameters name, paren.merge span⟩
  | (name :: formals, _) => .ok (name, formals)

/-- The parameters of an unnamed function. -/
def formals (paren : Span) (close : Option Span) (items : List Tree) :
    Except Problem (List Name) := do
  match ← parameters SpecialForm.lambda.name paren close items with
  | ([], span) => .error ⟨.lambdaWithoutParameters, paren.merge span⟩
  | (names, _) => .ok names

/-- The cells of a list, once it is closed. -/
def list (mode : Quoting) (paren : Span) (close : Option Span) (cells : List Value) :
    Except Problem Value := do
  let _ ← closing paren close
  .ok (.expr mode cells)

/-- The only body of a form. -/
def body (form : Name) (paren : Span) (close : Option Span) (values : List Value) :
    Except Problem Value := do
  let span ← closing paren close
  match values with
  | [value] => .ok value
  | _ => .error ⟨.bodyCount form values.length, paren.merge span⟩

def branch (paren : Span) (close : Option Span) (values : List Value) : Except Problem Value := do
  let span ← closing paren close
  match values with
  | [clause, yes, no] => .ok (.cond clause yes no)
  | _ => .error ⟨.branchCount values.length, paren.merge span⟩

def logic (op : Connective) (paren : Span) (close : Option Span) (values : List Value) :
    Except Problem Value := do
  let span ← closing paren close
  match values with
  | [] => .error ⟨.noOperands op.name, paren.merge span⟩
  | _ => .ok (.logic op values)

/-- One definition of a group of bindings. -/
def binding (name : Name) (paren : Span) (close : Option Span) (values : List Value) :
    Except Problem Value := do
  let span ← closing paren close
  match values with
  | [value] => .ok (.define name value)
  | _ => .error ⟨.letValueCount name values.length, paren.merge span⟩

/-- Bindings are a plain list of definitions. -/
def bindings (paren : Span) (close : Option Span) (definitions : List Value) :
    Except Problem Value := do
  let span ← closing paren close
  match definitions with
  | [] => .error ⟨.letEmpty, paren.merge span⟩
  | _ => .ok (.expr .plain definitions)

/-- The special form that a plain list with these items is. -/
def special? : List Tree → Option SpecialForm
  | .atom (.sym name) _ :: _ => SpecialForm.ofName? name
  | _ => none

end Form

namespace Tree

mutual

/-- The value that a tree stands for. -/
def read : Tree → Except Problem Value
  | .atom a _ => .ok a.value
  | .dangling mark span found => .error ⟨.danglingMark mark found.kind, span.merge found.span⟩
  | .group (some (mark, _)) paren items close => do
    Form.list mark.quoting paren close (← readAfter 0 items)
  | .group none paren items close =>
    match Form.special? items with
    | none => do Form.list .plain paren close (← readAfter 0 items)
    | some .branch => do Form.branch paren close (← readAfter 1 items)
    | some .define => do
      let name ← Form.target SpecialForm.define.name paren close (items.drop 1)
      .ok (.define name (← Form.body SpecialForm.define.name paren close (← readAfter 2 items)))
    | some .shortDefine => do
      let name ← Form.target SpecialForm.shortDefine.name paren close (items.drop 1)
      .ok (.define name (← Form.body SpecialForm.shortDefine.name paren close (← readAfter 2 items)))
    | some .function => do
      let (name, formals) ← Form.signature paren close (items.drop 1)
      let body ← Form.body SpecialForm.function.name paren close (← readAfter 2 items)
      .ok (.define name (.lambda formals body []))
    | some .lambda => do
      let formals ← Form.formals paren close (items.drop 1)
      .ok (.lambda formals (← Form.body SpecialForm.lambda.name paren close (← readAfter 2 items)) [])
    | some (.logic op) => do Form.logic op paren close (← readAfter 1 items)
    | some .bindings => do Form.bindings paren close (← readBindings 1 items)

/-- Reads what is left after some items. -/
def readAfter : Nat → List Tree → Except Problem (List Value)
  | _, [] => .ok []
  | skip + 1, _ :: rest => readAfter skip rest
  | 0, t :: rest => do
    let value ← t.read
    let values ← readAfter 0 rest
    .ok (value :: values)

/-- Reads name and value pairs, after some items. -/
def readBindings : Nat → List Tree → Except Problem (List Value)
  | _, [] => .ok []
  | skip + 1, _ :: rest => readBindings skip rest
  | 0, .group none paren (.atom (.sym name) _ :: items) close :: rest => do
    let definition ← Form.binding name paren close (← readAfter 0 items)
    let definitions ← readBindings 0 rest
    .ok (definition :: definitions)
  | 0, .group none paren items close :: _ => do
    let found ← Form.upcoming paren close items
    .error ⟨.letName found.kind, found.span⟩
  | 0, t :: _ => .error ⟨.letEntry t.front.kind, t.front.span⟩

end

end Tree

end Lisplet
