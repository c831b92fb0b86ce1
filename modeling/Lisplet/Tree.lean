import Lisplet.Token

/-!
Trees: tokens grouped by their parentheses, before any list means anything. Grouping never fails; a
group that is not closed runs to the end of the input, and a closing parenthesis without partner
stands between trees. So a fault inside one top-level tree cannot reach its neighbours.
-/

namespace Lisplet

inductive Tree where
  | atom (a : Atom) (span : Span)
  /-- A quote mark without a list after it, and the token found there instead. An atom found there
  belongs to the tree. -/
  | dangling (mark : Mark) (span : Span) (found : Token)
  /-- A parenthesis, the mark before it if there is one, and everything up to its partner. -/
  | group (mark : Option (Mark × Span)) (paren : Span) (items : List Tree) (close : Option Span)

/-- The first token of a tree. -/
def Tree.front : Tree → Token
  | .atom a span => ⟨.atom a, span⟩
  | .dangling mark span _ => ⟨.mark mark, span⟩
  | .group (some (mark, span)) _ _ _ => ⟨.mark mark, span⟩
  | .group none paren _ _ => ⟨.lparen, paren⟩

/-- Trees up to the end of the input, or up to a closing parenthesis and on from there. -/
inductive Forest where
  | ending (items : List Tree)
  | closing (items : List Tree) (close : Span) (outer : Forest)

namespace Forest

/-- Puts a tree in front. -/
def push (t : Tree) : Forest → Forest
  | .ending items => .ending (t :: items)
  | .closing items close outer => .closing (t :: items) close outer

/-- Puts an opening parenthesis in front: it takes the trees up to the first closing one. -/
def wrap (mark : Option (Mark × Span)) (paren : Span) : Forest → Forest
  | .ending items => .ending [.group mark paren items none]
  | .closing items close outer => outer.push (.group mark paren items (some close))

/-- Groups the tokens before the first end of input. Where that token is missing, the end stands at
the last token. -/
def ofTokens : List Token → Forest
  | [] => .ending []
  | ⟨.eof, _⟩ :: _ => .ending []
  | ⟨.lparen, span⟩ :: rest => (ofTokens rest).wrap none span
  | ⟨.rparen, span⟩ :: rest => .closing [] span (ofTokens rest)
  | ⟨.atom a, span⟩ :: rest => (ofTokens rest).push (.atom a span)
  | [⟨.mark m, span⟩] => .ending [.dangling m span ⟨.eof, span⟩]
  | ⟨.mark m, span⟩ :: ⟨.lparen, paren⟩ :: rest => (ofTokens rest).wrap (some (m, span)) paren
  | ⟨.mark m, span⟩ :: ⟨.atom a, place⟩ :: rest =>
    (ofTokens rest).push (.dangling m span ⟨.atom a, place⟩)
  | ⟨.mark m, span⟩ :: found :: rest => (ofTokens (found :: rest)).push (.dangling m span found)

end Forest

/-- What a program is made of at the top: trees, and closing parentheses without partner. -/
inductive Segment where
  | tree (t : Tree)
  | stray (close : Span)

def Forest.segments : Forest → List Segment
  | .ending items => items.map .tree
  | .closing items close outer => items.map .tree ++ .stray close :: outer.segments

end Lisplet
