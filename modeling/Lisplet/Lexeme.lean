import Lisplet.Complaint

/-!
Lexemes: the pieces into which every source text is cut from left to right. Cutting looks at the
shape of the text only and never fails; what a piece means, or what is wrong with it, is decided
piece by piece afterwards.
-/

namespace Lisplet

/-- Space, tab, line feed, form feed and carriage return. -/
def isSpace (c : Char) : Bool :=
  c == ' ' || c == '\t' || c == '\n' || c == '\x0c' || c == '\r'

/-- ASCII letters and digits, some punctuation, and every character beyond ASCII. -/
def isSymbolChar (c : Char) : Bool :=
  c.isAlphanum || "+-*/<>=!%^_?&.".toList.contains c || 0x80 ≤ c.toNat

def isSign (c : Char) : Bool := c == '+' || c == '-'

/-- A number as written: sign, digits, fraction with its point, exponent with its letter. Each part
but the digits may be empty. -/
structure Numeral where
  sign : List Char
  whole : List Char
  fraction : List Char
  exponent : List Char
  deriving DecidableEq

namespace Numeral

def text (n : Numeral) : List Char := n.sign ++ n.whole ++ n.fraction ++ n.exponent

/-- A point counts only with a digit after it. -/
def fractionOf : List Char → List Char
  | '.' :: rest =>
    match rest.takeWhile Char.isDigit with
    | [] => []
    | digits => '.' :: digits
  | _ => []

/-- Splits a sign off. -/
def signOf : List Char → List Char
  | c :: _ => if isSign c then [c] else []
  | [] => []

/-- The letter counts only with a digit after it, or after the sign that follows it. -/
def exponentOf : List Char → List Char
  | e :: rest =>
    if e == 'e' || e == 'E' then
      let sign := signOf rest
      match (rest.drop sign.length).takeWhile Char.isDigit with
      | [] => []
      | digits => e :: sign ++ digits
    else []
  | [] => []

/-- The longest numeral at the front of a text that starts with a digit or a signed digit. -/
def ofFront (text : List Char) : Numeral :=
  let sign := signOf text
  let text := text.drop sign.length
  let whole := text.takeWhile Char.isDigit
  let text := text.drop whole.length
  let fraction := fractionOf text
  let exponent := exponentOf (text.drop fraction.length)
  ⟨sign, whole, fraction, exponent⟩

def digitsValue (digits : List Char) : Nat := Nat.ofDigitChars 10 digits 0

/-- The whole number written by an optional sign and digits. -/
def signedValue (sign digits : List Char) : Int :=
  if sign = ['-'] then -digitsValue digits else digitsValue digits

def exponentValue (n : Numeral) : Int :=
  let rest := n.exponent.drop 1
  let sign := signOf rest
  signedValue sign (rest.drop sign.length)

/-- The decimal without its sign: the point goes and the exponent makes up for it. -/
def decimal (n : Numeral) : Decimal :=
  let places := n.fraction.drop 1
  ⟨digitsValue (n.whole ++ places), n.exponentValue - places.length⟩

/-- An integer within 64 bits or, with a fraction or an exponent, the nearest double. -/
def value (n : Numeral) : Option Atom :=
  if n.fraction = [] ∧ n.exponent = [] then
    let k := signedValue n.sign n.whole
    if Int64.minValue.toInt ≤ k ∧ k ≤ Int64.maxValue.toInt then some (.int (Int64.ofInt k)) else none
  else
    let x := n.decimal.toFloat
    some (.float (if n.sign = ['-'] then -x else x))

end Numeral

inductive Lexeme where
  | blank (c : Char)
  | comment (text : List Char)
  | lparen
  | rparen
  | mark (m : Mark)
  /-- What stands between two quotes, escapes as written. -/
  | string (body : List Char)
  | unterminated (body : List Char)
  /-- What follows a number sign. -/
  | hash (name : List Char)
  | numeral (n : Numeral)
  | symbol (name : List Char)
  | stray (c : Char)
  deriving DecidableEq

namespace Lexeme

def markText : Mark → Char
  | .quote => '\''
  | .quasi => '\x60'

/-- The source text of a piece. -/
def text : Lexeme → List Char
  | .blank c => [c]
  | .comment text => ';' :: text
  | .lparen => ['(']
  | .rparen => [')']
  | .mark m => [markText m]
  | .string body => '"' :: body ++ ['"']
  | .unterminated body => '"' :: body
  | .hash name => '#' :: name
  | .numeral n => n.text
  | .symbol name => name
  | .stray c => [c]

/-- The text up to the first quote that no backslash precedes, and whether there is one. -/
def stringBody : List Char → List Char × Bool
  | [] => ([], false)
  | '"' :: _ => ([], true)
  | '\\' :: c :: rest =>
    let (body, closed) := stringBody rest
    ('\\' :: c :: body, closed)
  | c :: rest =>
    let (body, closed) := stringBody rest
    (c :: body, closed)

/-- The first piece of a text. -/
def first (c : Char) (rest : List Char) : Lexeme :=
  if isSpace c then .blank c
  else if c == ';' then .comment (rest.takeWhile (· != '\n'))
  else if c == '(' then .lparen
  else if c == ')' then .rparen
  else if c == '\'' then .mark .quote
  else if c == '\x60' then .mark .quasi
  else if c == '"' then
    let (body, closed) := stringBody rest
    if closed then .string body else .unterminated body
  else if c == '#' then .hash (rest.takeWhile isSymbolChar)
  else if c.isDigit || isSign c && (rest.head?.any Char.isDigit) then
    .numeral (.ofFront (c :: rest))
  else if isSymbolChar c then .symbol (c :: rest.takeWhile isSymbolChar)
  else .stray c

/-- Cuts a text after skipping some characters. -/
def cutAfter : Nat → List Char → List Lexeme
  | _, [] => []
  | skip + 1, _ :: rest => cutAfter skip rest
  | 0, c :: rest =>
    let piece := first c rest
    piece :: cutAfter (piece.text.length - 1) rest

/-- All pieces of a text, in order. -/
def cut (text : List Char) : List Lexeme := cutAfter 0 text

/-- Four backslash forms stand for one character; every other backslash stands for itself. -/
def unescape : List Char → List Char
  | [] => []
  | '\\' :: '"' :: rest => '"' :: unescape rest
  | '\\' :: '\\' :: rest => '\\' :: unescape rest
  | '\\' :: 'n' :: rest => '\n' :: unescape rest
  | '\\' :: 't' :: rest => '\t' :: unescape rest
  | c :: rest => c :: unescape rest

/-- What a piece contributes to the tokens. -/
inductive Meaning where
  | trivia
  | token (kind : Token.Kind)
  | bad (complaint : Complaint)

def atomOr (complaint : Complaint) : Option Atom → Meaning
  | some a => .token (.atom a)
  | none => .bad complaint

def meaning : Lexeme → Meaning
  | .blank _ | .comment _ => .trivia
  | .lparen => .token .lparen
  | .rparen => .token .rparen
  | .mark m => .token (.mark m)
  | .string body => .token (.atom (.str (String.ofList (unescape body))))
  | .unterminated _ => .bad .unterminatedString
  | .hash ['t'] => .token (.atom (.bool true))
  | .hash ['f'] => .token (.atom (.bool false))
  | .hash name => .bad (.unknownLiteral (String.ofList ('#' :: name)))
  | .numeral n => atomOr (.numberOutOfRange (String.ofList n.text)) n.value
  | .symbol name => .token (.atom (.sym (String.ofList name)))
  | .stray c => .bad (.unexpectedCharacter c)

end Lexeme

end Lisplet
