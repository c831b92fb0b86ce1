import Lisplet.Lexeme

/-!
JSON texts. A tree keeps numbers and strings as they are written, because a reader that skips a value
must not refuse it for a number or a code unit that it never needs; `decode` and `whole?` give them
their meaning.
-/

namespace Lisplet

inductive Json where
  | null
  | bool (b : Bool)
  | number (literal : List Char)
  /-- What stands between the quotes. -/
  | string (body : List Char)
  | array (items : List Json)
  | object (fields : List (List Char × Json))

namespace Json

def isBlank (c : Char) : Bool := c == ' ' || c == '\n' || c == '\t' || c == '\r'

def skipBlank (text : List Char) : List Char := text.dropWhile isBlank

def hexValue (c : Char) : Option Nat :=
  if c.isDigit then some (c.toNat - '0'.toNat)
  else if 'a' ≤ c ∧ c ≤ 'f' then some (c.toNat - 'a'.toNat + 10)
  else if 'A' ≤ c ∧ c ≤ 'F' then some (c.toNat - 'A'.toNat + 10)
  else none

/-- A code unit written with four hexadecimal digits. -/
def unit? (a b c d : Char) : Option Nat := do
  some ((((← hexValue a) * 16 + (← hexValue b)) * 16 + (← hexValue c)) * 16 + (← hexValue d))

/-- The character of a backslash form with one letter. -/
def unescaped? : Char → Option Char
  | '"' => some '"'
  | '\\' => some '\\'
  | '/' => some '/'
  | 'b' => some '\x08'
  | 'f' => some '\x0c'
  | 'n' => some '\n'
  | 'r' => some '\r'
  | 't' => some '\t'
  | _ => none

/-- Splits a string body off at its closing quote. Backslash forms must be well formed, and controls
may not stand in it. -/
def splitBody : List Char → Option (List Char × List Char)
  | [] => none
  | '"' :: rest => some ([], rest)
  | '\\' :: 'u' :: a :: b :: c :: d :: rest => do
    let _ ← unit? a b c d
    let (body, rest) ← splitBody rest
    some ('\\' :: 'u' :: a :: b :: c :: d :: body, rest)
  | '\\' :: c :: rest => do
    let _ ← unescaped? c
    let (body, rest) ← splitBody rest
    some ('\\' :: c :: body, rest)
  | c :: rest =>
    if c == '\\' || c.toNat < 0x20 then none
    else do
      let (body, rest) ← splitBody rest
      some (c :: body, rest)

def isHigh (unit : Nat) : Bool := 0xd800 ≤ unit && unit < 0xdc00

def isLow (unit : Nat) : Bool := 0xdc00 ≤ unit && unit < 0xe000

/-- The character of two code units, the first high and the second low. -/
def paired (high low : Nat) : Char :=
  Char.ofNat (0x10000 + (high - 0xd800) * 0x400 + (low - 0xdc00))

/-- The text that a string body stands for. Code units beyond the basic plane must come in pairs. -/
def decodeBody : List Char → Option (List Char)
  | [] => some []
  | '\\' :: 'u' :: a :: b :: c :: d :: rest => do
    let first ← unit? a b c d
    if isLow first then none
    else if isHigh first then
      match rest with
      | '\\' :: 'u' :: e :: f :: g :: h :: rest => do
        let second ← unit? e f g h
        if isLow second then (decodeBody rest).map (paired first second :: ·) else none
      | _ => none
    else (decodeBody rest).map (Char.ofNat first :: ·)
  | '\\' :: c :: rest => do
    let c ← unescaped? c
    (decodeBody rest).map (c :: ·)
  | c :: rest => (decodeBody rest).map (c :: ·)

def decode (body : List Char) : Option String := (decodeBody body).map String.ofList

/-- How one character is written in a string body. -/
def escape (c : Char) : List Char :=
  match c with
  | '"' => ['\\', '"']
  | '\\' => ['\\', '\\']
  | '\x08' => ['\\', 'b']
  | '\x0c' => ['\\', 'f']
  | '\n' => ['\\', 'n']
  | '\r' => ['\\', 'r']
  | '\t' => ['\\', 't']
  | _ =>
    if c.toNat < 0x20 then
      ['\\', 'u', '0', '0', Nat.digitChar (c.toNat / 16), Nat.digitChar (c.toNat % 16)]
    else [c]

def encode (text : String) : List Char := text.toList.flatMap escape

def ofString (text : String) : Json := .string (encode text)

def ofNat (n : Nat) : Json := .number (Nat.toDigits 10 n)

/-- The whole number below `bound` that a literal of digits alone stands for. -/
def whole? (bound : Nat) : Json → Option Nat
  | .number literal =>
    let n := Numeral.digitsValue literal
    if literal.all Char.isDigit && n < bound then some n else none
  | _ => none

def string? : Json → Option String
  | .string body => decode body
  | _ => none

/-- Splits a number off: no leading zeros, digits on both sides of a point. -/
def splitNumber (text : List Char) : Option (List Char × List Char) :=
  let sign := if text.head? = some '-' then ['-'] else []
  let text := text.drop sign.length
  let whole :=
    match text with
    | '0' :: _ => ['0']
    | text => text.takeWhile Char.isDigit
  let rest := text.drop whole.length
  let fraction := Numeral.fractionOf rest
  let exponent := Numeral.exponentOf (rest.drop fraction.length)
  let rest := (rest.drop fraction.length).drop exponent.length
  if whole = [] then none else some (sign ++ whole ++ fraction ++ exponent, rest)

mutual

/-- Splits a value off the front of a text. -/
def splitValue : Nat → List Char → Option (Json × List Char)
  | 0, _ => none
  | fuel + 1, text =>
    match skipBlank text with
    | '"' :: rest => (splitBody rest).map fun (body, rest) => (.string body, rest)
    | '[' :: rest =>
      match skipBlank rest with
      | ']' :: rest => some (.array [], rest)
      | rest => (splitItems fuel rest).map fun (items, rest) => (.array items, rest)
    | '\x7b' :: rest =>
      match skipBlank rest with
      | '\x7d' :: rest => some (.object [], rest)
      | rest => (splitFields fuel rest).map fun (fields, rest) => (.object fields, rest)
    | 'n' :: 'u' :: 'l' :: 'l' :: rest => some (.null, rest)
    | 't' :: 'r' :: 'u' :: 'e' :: rest => some (.bool true, rest)
    | 'f' :: 'a' :: 'l' :: 's' :: 'e' :: rest => some (.bool false, rest)
    | rest => (splitNumber rest).map fun (literal, rest) => (.number literal, rest)

/-- Splits items off up to the bracket that closes them. -/
def splitItems : Nat → List Char → Option (List Json × List Char)
  | 0, _ => none
  | fuel + 1, text => do
    let (item, rest) ← splitValue fuel text
    match skipBlank rest with
    | ',' :: rest => (splitItems fuel rest).map fun (items, rest) => (item :: items, rest)
    | ']' :: rest => some ([item], rest)
    | _ => none

/-- Splits fields off up to the brace that closes them. -/
def splitFields : Nat → List Char → Option (List (List Char × Json) × List Char)
  | 0, _ => none
  | fuel + 1, text =>
    match skipBlank text with
    | '"' :: rest => do
      let (key, rest) ← splitBody rest
      match skipBlank rest with
      | ':' :: rest =>
        let (value, rest) ← splitValue fuel rest
        match skipBlank rest with
        | ',' :: rest => (splitFields fuel rest).map fun (fields, rest) => ((key, value) :: fields, rest)
        | '\x7d' :: rest => some ([(key, value)], rest)
        | _ => none
      | _ => none
    | _ => none

end

/-- Reads a text that holds one value and blanks. Every second step takes a character. -/
def parse (text : String) : Option Json := do
  let text := text.toList
  let (value, rest) ← splitValue (2 * text.length + 2) text
  if skipBlank rest = [] then some value else none

mutual

/-- The text of a tree, without blanks. -/
def text : Json → List Char
  | .null => ['n', 'u', 'l', 'l']
  | .bool true => ['t', 'r', 'u', 'e']
  | .bool false => ['f', 'a', 'l', 's', 'e']
  | .number literal => literal
  | .string body => '"' :: body ++ ['"']
  | .array items => '[' :: itemsText items ++ [']']
  | .object fields => '\x7b' :: fieldsText fields ++ ['\x7d']

def itemsText : List Json → List Char
  | [] => []
  | [item] => item.text
  | item :: items => item.text ++ ',' :: itemsText items

def fieldsText : List (List Char × Json) → List Char
  | [] => []
  | [(key, value)] => '"' :: key ++ '"' :: ':' :: value.text
  | (key, value) :: fields => '"' :: key ++ '"' :: ':' :: value.text ++ ',' :: fieldsText fields

end

/-- Goes on from `n` with more digits for as long as the number fits in 64 bits. Gives the number and
how many digits it took. -/
def takeDigits : Nat → List Char → Nat × Nat
  | n, [] => (n, 0)
  | n, c :: rest =>
    let next := Nat.ofDigitChars 10 [c] n
    if next < 0x10000000000000000 then
      let (n, taken) := takeDigits next rest
      (n, taken + 1)
    else (n, 0)

/-- A number cut to the digits that fit in 64 bits. Each whole digit that is cut off counts in the
exponent, a place that is cut off does not. -/
def narrowed (n : Numeral) : Decimal :=
  let (whole, taken) := takeDigits 0 n.whole
  let (digits, places) := takeDigits whole (n.fraction.drop 1)
  ⟨digits, n.exponentValue + (n.whole.length - taken : Nat) - places⟩

/-- Whether a literal can be kept as a double. The cut digits and the power of ten are rounded each on
its own, so just below the largest double it is their product, and not the number, that decides. -/
def isFinite (literal : List Char) : Bool :=
  let d := narrowed (Numeral.ofFront literal)
  d.digits = 0 || d.exponent < 0 ||
    (Decimal.toFloat ⟨d.digits, 0⟩ * Decimal.toFloat ⟨1, d.exponent⟩).isFinite

mutual

/-- Whether a value can be kept for later: all its texts decode, its numbers are finite, and its
arrays and objects nest at most `levels` deep. -/
def keepable : Nat → Json → Bool
  | _, .null | _, .bool _ => true
  | _, .number literal => isFinite literal
  | _, .string body => (decode body).isSome
  | levels, .array items => 0 < levels && itemsKeepable (levels - 1) items
  | levels, .object fields => 0 < levels && fieldsKeepable (levels - 1) fields

def itemsKeepable : Nat → List Json → Bool
  | _, [] => true
  | levels, item :: items => keepable levels item && itemsKeepable levels items

def fieldsKeepable : Nat → List (List Char × Json) → Bool
  | _, [] => true
  | levels, (key, value) :: fields =>
    (decode key).isSome && keepable levels value && fieldsKeepable levels fields

end

end Json

end Lisplet
