/-!
Sets of characters given as ranges of code points, both ends included. Property tables of the
character standard are stored in this shape.
-/

namespace Lisplet.Text

/-- Whether some range of the table holds the code point. -/
def inRanges (table : List (Nat × Nat)) (code : Nat) : Bool :=
  table.any fun range => range.1 ≤ code && code ≤ range.2

end Lisplet.Text
