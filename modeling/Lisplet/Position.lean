/-!
Places in a source text. Lines and columns count from one; a column counts bytes of the UTF-8 form,
so a wide character takes several.
-/

namespace Lisplet

structure Position where
  line : Nat
  column : Nat
  deriving DecidableEq

namespace Position

def origin : Position := ⟨1, 1⟩

/-- The line decides first. -/
instance : LE Position :=
  ⟨fun a b => a.line < b.line ∨ a.line = b.line ∧ a.column ≤ b.column⟩

instance (a b : Position) : Decidable (a ≤ b) :=
  inferInstanceAs (Decidable (a.line < b.line ∨ a.line = b.line ∧ a.column ≤ b.column))

instance : Min Position := ⟨fun a b => if a ≤ b then a else b⟩
instance : Max Position := ⟨fun a b => if a ≤ b then b else a⟩

/-- The place after one character. -/
def next (p : Position) (c : Char) : Position :=
  if c = '\n' then ⟨p.line + 1, 1⟩ else ⟨p.line, p.column + c.utf8Size⟩

/-- The place after a text that starts at `p`. -/
def after (p : Position) (text : List Char) : Position := text.foldl next p

/-- The byte before, on the same line if there is one. -/
def back (p : Position) : Position := ⟨p.line, max 1 (p.column - 1)⟩

def text (p : Position) : String := s!"{p.line}:{p.column}"

end Position

/-- A stretch of source from its first to its last byte. -/
structure Span where
  first : Position
  last : Position
  deriving DecidableEq

namespace Span

def point (p : Position) : Span := ⟨p, p⟩

/-- The stretch that a text starting at `p` fills. -/
def ofText (p : Position) (text : List Char) : Span := ⟨p, (p.after text).back⟩

/-- The smallest span that covers both. -/
def merge (a b : Span) : Span := ⟨min a.first b.first, max a.last b.last⟩

def text (s : Span) : String := s.first.text

end Span

end Lisplet
