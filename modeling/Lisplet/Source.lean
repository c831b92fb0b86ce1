/-!
Named source texts and their lines.
-/

namespace Lisplet

structure Source where
  name : String
  text : String

namespace Source

/-- The stretches between line feeds. There is always at least one. -/
def splitLines : List Char → List (List Char)
  | [] => [[]]
  | c :: rest =>
    if c = '\n' then [] :: splitLines rest
    else match splitLines rest with
      | [] => [[c]]
      | line :: lines => (c :: line) :: lines

def lines (s : Source) : List (List Char) := splitLines s.text.toList

def lineCount (s : Source) : Nat := s.lines.length

/-- A line without the carriage returns that end it. -/
def stripReturns (line : List Char) : List Char :=
  (line.reverse.dropWhile (· == '\r')).reverse

/-- The text of a line, counted from one. -/
def line? (s : Source) (number : Nat) : Option String :=
  match number with
  | 0 => none
  | n + 1 => s.lines[n]?.map fun line => String.ofList (stripReturns line)

end Source

end Lisplet
