import Lisplet.Program

/-!
The parser: a cursor goes over the tokens from left to right and never back. A form that is wrong
reports one problem, and no value comes of it. The cursor then stands somewhere inside the form, and
each exit has to see to it that the rest is skipped: once for every list that is still open, and not
once more, or a parenthesis of the form around it is taken for its own.
-/

namespace Lisplet

/-- The tokens from the cursor on, and what is wrong with those before it. The end of input stands
behind all tokens and is never passed. -/
structure Parser where
  /-- The span of the token that the cursor passed last. -/
  previous : Span
  ahead : List Token
  /-- Where the end of input stands. -/
  finish : Span
  problems : List Problem

namespace Parser

/-- The cursor before all tokens. An end of input that is missing stands at the last token. -/
def start (tokens : List Token) : Parser :=
  match tokens.getLast? with
  | none => ⟨.point .origin, [], .point .origin, []⟩
  | some ⟨.eof, span⟩ => ⟨.point .origin, tokens.dropLast, span, []⟩
  | some last => ⟨.point .origin, tokens, last.span, []⟩

/-- The token at the cursor. -/
def current (p : Parser) : Token := p.ahead.headD ⟨.eof, p.finish⟩

def advance (p : Parser) : Parser :=
  match p.ahead with
  | [] => p
  | t :: rest => { p with previous := t.span, ahead := rest }

def report (p : Parser) (problem : Problem) : Parser :=
  { p with problems := p.problems ++ [problem] }

def isFull (p : Parser) : Bool := Report.capacity ≤ p.problems.length

/-- Goes past the parenthesis that closes the list around the cursor, inside which `depth` more are
open, or to the end of input if there is none. The result is the span of the token passed last, and
the tokens ahead. -/
def skip : Nat → Span → List Token → Span × List Token
  | _, last, [] => (last, [])
  | _, last, ⟨.eof, span⟩ :: rest => (last, ⟨.eof, span⟩ :: rest)
  | depth, _, ⟨.lparen, span⟩ :: rest => skip (depth + 1) span rest
  | 0, _, ⟨.rparen, span⟩ :: rest => (span, rest)
  | depth + 1, _, ⟨.rparen, span⟩ :: rest => skip depth span rest
  | depth, _, t :: rest => skip depth t.span rest

/-- Leaves the list around the cursor. -/
def recover (p : Parser) : Parser :=
  let (last, rest) := skip 0 p.previous p.ahead
  { p with previous := last, ahead := rest }

end Parser

/-- A walk of the cursor. It gives nothing at all if its steps did not suffice; otherwise it leaves
the cursor somewhere, and its result is missing if a form was wrong. -/
def Parse (α : Type) : Type := Parser → Option (Option α × Parser)

namespace Parse

variable {α β : Type}

protected def pure (a : α) : Parse α := fun p => some (some a, p)

/-- One walk after another, unless the first has no result. -/
protected def bind (x : Parse α) (f : α → Parse β) : Parse β := fun p =>
  match x p with
  | none => none
  | some (none, p) => some (none, p)
  | some (some a, p) => f a p

instance : Monad Parse where
  pure := Parse.pure
  bind := Parse.bind

/-- The walk that has no steps left. -/
def exhausted : Parse α := fun _ => none

/-- Something read off the cursor. -/
def reading (f : Parser → α) : Parse α := fun p => some (some (f p), p)

def current : Parse Token := reading Parser.current

/-- Passes the token at the cursor, and gives its span. -/
def pass : Parse Span := fun p => some (some p.current.span, p.advance)

/-- Reports a problem. There is no result. -/
def fail (problem : Problem) : Parse α := fun p => some (none, p.report problem)

/-- Where the result is missing, the cursor leaves the list around it. -/
def recovering (x : Parse α) : Parse α := fun p =>
  match x p with
  | some (none, p) => some (none, p.recover)
  | other => other

/-- Where the result is missing, the cursor goes on by one token. -/
def advancing (x : Parse α) : Parse α := fun p =>
  match x p with
  | some (none, p) => some (none, p.advance)
  | other => other

/-- The list that opened at `paren` runs into the end of input. -/
def unclosed (paren : Span) : Parse α := fail ⟨.unclosed paren, paren⟩

/-- The token at the cursor has no place there. -/
def misplaced (complaint : Token.Kind → Complaint) : Parse α := do
  let t ← current
  fail ⟨complaint t.kind, t.span⟩

/-- The form that opened at `paren` and of which the last token has been passed has the wrong
parts. -/
def malformed (paren : Span) (complaint : Complaint) : Parse α := do
  let last ← reading Parser.previous
  fail ⟨complaint, paren.merge last⟩

/-- None of what could stand next in the list that opened at `paren` does. -/
def refuse (paren : Span) (complaint : Token.Kind → Complaint) : Parse α := do
  let t ← current
  match t.kind with
  | .eof => unclosed paren
  | _ => (misplaced complaint).recovering

/-- The items up to the parenthesis that closes the list opened at `paren`. -/
def untilClose (item : Parse α) (paren : Span) : Nat → Parse (List α)
  | 0 => exhausted
  | steps + 1 => do
    let t ← current
    match t.kind with
    | .rparen => do
      let _ ← pass
      pure []
    | .eof => unclosed paren
    | _ => do
      let a ← item
      let rest ← untilClose item paren steps
      pure (a :: rest)

def symbol (form : Name) : Parse Name := do
  let t ← current
  match t.kind with
  | .atom (.sym name) => do
    let _ ← pass
    pure name
  | _ => (misplaced (.parameterName form)).recovering

section

variable (steps : Nat)

def symbolList (form : Name) : Parse (List Name) := do
  let paren ← pass
  untilClose (symbol form) paren steps

/-- The name that a definition binds: a symbol, or one symbol in parentheses. -/
def target (form : Name) (paren : Span) : Parse Name := do
  let t ← current
  match t.kind with
  | .atom (.sym name) => do
    let _ ← pass
    pure name
  | .lparen => do
    let names ← (symbolList steps form).recovering
    match names with
    | [name] => pure name
    | _ => (malformed paren (.severalNames form)).recovering
  | _ => refuse paren (.bindingTarget form)

/-- A parameter list. -/
def parameters (form : Name) (paren : Span) : Parse (List Name) := do
  let t ← current
  match t.kind with
  | .lparen => (symbolList steps form).recovering
  | _ => refuse paren (.parameterList form)

end

section

variable (datum : Parse Value) (steps : Nat)

/-- The values up to the end of a list. -/
def cells (paren : Span) : Parse (List Value) := untilClose datum.recovering paren steps

/-- The only body of a form. -/
def body (form : Name) (paren : Span) : Parse Value := do
  let values ← cells datum steps paren
  match values with
  | [value] => pure value
  | _ => malformed paren (.bodyCount form values.length)

def branch (paren : Span) : Parse Value := do
  let values ← cells datum steps paren
  match values with
  | [clause, yes, no] => pure (.cond clause yes no)
  | _ => malformed paren (.branchCount values.length)

def definition (form : Name) (paren : Span) : Parse Value := do
  let name ← target steps form paren
  let value ← body datum steps form paren
  pure (.define name value)

def function (paren : Span) : Parse Value := do
  let names ← parameters steps SpecialForm.function.name paren
  match names with
  | [] => (malformed paren .unnamedFunction).recovering
  | [name] => (malformed paren (.functionWithoutParameters name)).recovering
  | name :: formals => do
    let value ← body datum steps SpecialForm.function.name paren
    pure (.define name (.lambda formals value []))

def lambda (paren : Span) : Parse Value := do
  let names ← parameters steps SpecialForm.lambda.name paren
  match names with
  | [] => (malformed paren .lambdaWithoutParameters).recovering
  | _ => do
    let value ← body datum steps SpecialForm.lambda.name paren
    pure (.lambda names value [])

def logic (op : Connective) (paren : Span) : Parse Value := do
  let values ← cells datum steps paren
  match values with
  | [] => malformed paren (.noOperands op.name)
  | _ => pure (.logic op values)

/-- A name and its value, in a list that opened at `paren`. -/
def binding (paren : Span) : Parse Value := do
  let t ← current
  match t.kind with
  | .atom (.sym name) => do
    let _ ← pass
    let values ← cells datum steps paren
    match values with
    | [value] => pure (.define name value)
    | _ => malformed paren (.letValueCount name values.length)
  | _ => refuse paren .letName

def entry : Parse Value := do
  let t ← current
  match t.kind with
  | .lparen => (pass >>= binding datum steps).recovering
  | _ => (misplaced .letEntry).recovering

def bindings (paren : Span) : Parse Value := do
  let definitions ← untilClose (entry datum steps) paren steps
  match definitions with
  | [] => malformed paren .letEmpty
  | _ => pure (.expr .plain definitions)

/-- The rest of a special form, once its name has been passed. -/
def special (paren : Span) : SpecialForm → Parse Value
  | .branch => branch datum steps paren
  | .define => definition datum steps SpecialForm.define.name paren
  | .shortDefine => definition datum steps SpecialForm.shortDefine.name paren
  | .function => function datum steps paren
  | .lambda => lambda datum steps paren
  | .logic op => logic datum steps op paren
  | .bindings => bindings datum steps paren

/-- The special form that a list begins with, if it is a plain one. -/
def special? : Quoting → Token.Kind → Option SpecialForm
  | .plain, .atom (.sym name) => SpecialForm.ofName? name
  | _, _ => none

/-- A list that opened at `paren`. -/
def list (mode : Quoting) (paren : Span) : Parse Value := do
  let t ← current
  match special? mode t.kind with
  | some form => do
    let _ ← pass
    special datum steps paren form
  | none => do
    let values ← cells datum steps paren
    pure (.expr mode values)

/-- A list after a quote mark. An atom in its place goes with the mark; anything else stays. -/
def quoted (mark : Mark) : Parse Value := do
  let span ← pass
  let found ← current
  match found.kind with
  | .lparen => pass >>= list datum steps mark.quoting
  | .atom _ => advancing (fail ⟨.danglingMark mark found.kind, span.merge found.span⟩)
  | _ => fail ⟨.danglingMark mark found.kind, span.merge found.span⟩

end

/-- The value that begins at the cursor. -/
def datum : Nat → Parse Value
  | 0 => exhausted
  | steps + 1 => do
    let t ← current
    match t.kind with
    | .atom a => do
      let _ ← pass
      pure a.value
    | .lparen => pass >>= list (datum steps) steps .plain
    | .mark m => quoted (datum steps) steps m
    | .rparen => fail ⟨.strayClose, t.span⟩
    | .eof => fail ⟨.unexpectedEnd, t.span⟩

end Parse

namespace Parser

/-- The values up to the end of input, or up to the problem that there is no more room after. A
closing parenthesis without partner is a problem of its own. -/
def forms (datum : Parse Value) : Nat → Parser → Option (List Value × Parser)
  | 0, _ => none
  | steps + 1, p =>
    if p.current.kind = .eof ∨ p.isFull then some ([], p)
    else if p.current.kind = .rparen then
      forms datum steps (p.report ⟨.strayClose, p.current.span⟩).advance
    else
      match datum p with
      | none => none
      | some (none, p) => forms datum steps p
      | some (some value, p) => (forms datum steps p).map fun (values, p) => (value :: values, p)

/-- Walks over the tokens, with so many steps for each list and for the whole. -/
def parse (steps : Nat) (tokens : List Token) : Option Program :=
  (forms (.datum steps) steps (start tokens)).map fun (values, p) => ⟨values, p.problems⟩

end Parser

end Lisplet
