import Lisplet.Position

/-!
Diagnostics about a source text, and reports of them. A report stores the first twenty diagnostics
and counts the rest.
-/

namespace Lisplet

structure Diagnostic where
  file : String
  code : Nat
  message : String
  span : Span
  /-- The line on which the span starts. -/
  sourceLine : String
  suggestion : Option String
  deriving DecidableEq

namespace Diagnostic

def codeText (code : Nat) : String := s!"E{code}"

def text (d : Diagnostic) : String := s!"{d.span.text}: {codeText d.code} {d.message}"

end Diagnostic

structure Report where
  errors : List Diagnostic
  total : Nat
  deriving DecidableEq

namespace Report

/-- How many diagnostics a report stores. -/
def capacity : Nat := 20

def empty : Report := ⟨[], 0⟩

def hasErrors (r : Report) : Bool := 0 < r.total

/-- Readers stop once a report is full. -/
def isFull (r : Report) : Bool := capacity ≤ r.total

def push (r : Report) (d : Diagnostic) : Report :=
  ⟨if r.errors.length < capacity then r.errors ++ [d] else r.errors, r.total + 1⟩

def ofList (ds : List Diagnostic) : Report := ds.foldl push empty

/-- The number of diagnostics that were counted and not stored. -/
def hidden (r : Report) : Nat := r.total - r.errors.length

/-- Appends everything that `other` counts. -/
def extend (r other : Report) : Report :=
  let pushed := other.errors.foldl push r
  ⟨pushed.errors, pushed.total + other.hidden⟩

def text (r : Report) : String :=
  let lines := r.errors.map fun d => s!"{d.file}:{d.text}"
  let rest := if 0 < r.hidden then s!"\n... and {r.hidden} more" else ""
  "\n".intercalate lines ++ rest

end Report

end Lisplet
