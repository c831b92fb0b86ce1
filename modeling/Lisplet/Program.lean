import Lisplet.Form
import Lisplet.Scan

/-!
Programs: the values of all top-level trees of a source text, and the problems of those that have no
value. Each segment gives one value or one problem, and the twentieth problem ends the reading.
-/

namespace Lisplet

/-- The value of a segment, or its one problem. -/
def Segment.read : Segment → Except Problem Value
  | .tree t => t.read
  | .stray close => .error ⟨.strayClose, close⟩

structure Program where
  forms : List Value
  problems : List Problem

namespace Program

def addForm (p : Program) (value : Value) : Program := ⟨value :: p.forms, p.problems⟩

def addProblem (p : Program) (problem : Problem) : Program := ⟨p.forms, problem :: p.problems⟩

/-- Reads segments, with room for `room` problems. -/
def ofSegments : Nat → List Segment → Program
  | 0, _ => ⟨[], []⟩
  | _, [] => ⟨[], []⟩
  | room + 1, s :: rest =>
    match s.read with
    | .ok value => (ofSegments (room + 1) rest).addForm value
    | .error problem => (ofSegments room rest).addProblem problem

/-- Reads the tokens before the first end of input. -/
def ofTokens (tokens : List Token) : Program :=
  ofSegments Report.capacity (Forest.ofTokens tokens).segments

/-- Reads a text whose lexemes are all tokens; otherwise only their problems are told. -/
def ofText (text : String) : Program :=
  let scan := Scan.ofText text
  match scan.problems with
  | [] => ofTokens scan.tokens
  | problems => ⟨[], problems⟩

end Program

end Lisplet
