import Lisplet.Text.Combining
import Lisplet.Text.Unprintable

/-!
Quoted text: a string between double quotes, with a backslash form for every character that could
not be read off the page.
-/

namespace Lisplet.Text

/-- A numbered escape: backslash, `u`, and the code point in braces. -/
def numbered (c : Char) : List Char :=
  ['\\', 'u', '\x7b'] ++ Nat.toDigits 16 c.toNat ++ ['\x7d']

/-- How one character stands inside a quoted text. -/
def escape (c : Char) : List Char :=
  match c with
  | '\x00' => ['\\', '0']
  | '\t' => ['\\', 't']
  | '\r' => ['\\', 'r']
  | '\n' => ['\\', 'n']
  | '"' => ['\\', '"']
  | '\\' => ['\\', '\\']
  | _ =>
    if 0x20 ≤ c.toNat ∧ c.toNat < 0x7f then [c]
    else if isCombining c || isUnprintable c then numbered c
    else [c]

def quote (text : String) : String :=
  String.ofList ('"' :: text.toList.flatMap escape ++ ['"'])

/-- The characters that quoting leaves alone. -/
def IsPlain (c : Char) : Prop := escape c = [c]

instance (c : Char) : Decidable (IsPlain c) := inferInstanceAs (Decidable (escape c = [c]))

end Lisplet.Text
