import Lisplet.Lexeme

/-!
Scanning: the tokens of a source text with their positions, and the problems of the lexemes that are
no tokens. A bad lexeme is passed over, and the twentieth ends the scan.
-/

namespace Lisplet

structure Scan where
  tokens : List Token
  problems : List Problem

namespace Scan

def addToken (s : Scan) (kind : Token.Kind) (span : Span) : Scan :=
  ⟨⟨kind, span⟩ :: s.tokens, s.problems⟩

def addProblem (s : Scan) (complaint : Complaint) (span : Span) : Scan :=
  ⟨s.tokens, ⟨complaint, span⟩ :: s.problems⟩

/-- The end of input, where scanning stops. -/
def endAt (p : Position) : Scan := ⟨[⟨.eof, .point p⟩], []⟩

/-- Scans pieces that start at `p`, with room for `room` more problems. -/
def ofLexemes : Nat → Position → List Lexeme → Scan
  | _, p, [] => endAt p
  | room, p, piece :: rest =>
    let span := Span.ofText p piece.text
    let after := p.after piece.text
    match room, piece.meaning with
    | room, .trivia => ofLexemes room after rest
    | 0, _ => endAt p
    | room + 1, .token kind => (ofLexemes (room + 1) after rest).addToken kind span
    | room + 1, .bad complaint => (ofLexemes room after rest).addProblem complaint span

def ofText (text : String) : Scan :=
  ofLexemes Report.capacity .origin (Lexeme.cut text.toList)

end Scan

namespace Source

def scan (s : Source) : Scan := Scan.ofText s.text

def report (s : Source) (problems : List Problem) : Report :=
  Report.ofList (problems.map s.diagnose)

end Source

end Lisplet
