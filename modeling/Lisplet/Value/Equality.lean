import Lisplet.Value.Basic

/-!
Two equalities. `same` compares values as programs, except that the quoting mode of a list does not
count. `equal` is the language's own equality: an integer equals the double it converts to, and
lists compare cell by cell, whether they are expressions or sequences. Whether two values are one
and the same is decidable too.
-/

namespace Lisplet

/-- The nearest double of an integer, ties to even. -/
def floatOfInt (n : Int64) : Float := Float.ofInt n.toInt

namespace Value

mutual

def same : Value → Value → Bool
  | .int m, .int n => m == n
  | .float x, .float y => x == y
  | .bool a, .bool b => a == b
  | .str s, .str t => s == t
  | .sym a, .sym b => a == b
  | .expr _ xs, .expr _ ys => sameAll xs ys
  | .lambda fs body captured, .lambda gs other frame =>
    fs == gs && body.same other && sameBindings captured frame
  | .define a v, .define b w => a == b && v.same w
  | .cond a b c, .cond x y z => a.same x && b.same y && c.same z
  | .logic op xs, .logic other ys => op == other && sameAll xs ys
  | .builtin a, .builtin b => a.same b
  | .seq xs, .seq ys => sameAll xs ys
  | .error f, .error g => f == g
  | .nothing, .nothing => true
  | _, _ => false

def sameAll : List Value → List Value → Bool
  | [], [] => true
  | x :: xs, y :: ys => x.same y && sameAll xs ys
  | _, _ => false

def sameBindings : List (Name × Value) → List (Name × Value) → Bool
  | [], [] => true
  | (a, v) :: xs, (b, w) :: ys => a == b && v.same w && sameBindings xs ys
  | _, _ => false

end

mutual

def equal : Value → Value → Bool
  | .int m, .float y => floatOfInt m == y
  | .float x, .int n => floatOfInt n == x
  | .expr _ xs, other =>
    match other.cells? with
    | some ys => equalAll xs ys
    | none => false
  | .seq xs, other =>
    match other.cells? with
    | some ys => equalAll xs ys
    | none => false
  | v, w => v.same w

def equalAll : List Value → List Value → Bool
  | [], [] => true
  | x :: xs, y :: ys => x.equal y && equalAll xs ys
  | _, _ => false

end

mutual

def decEq (a b : Value) : Decidable (a = b) :=
  if h : a.ctorIdx = b.ctorIdx then
    match a, b, h with
    | .int m, .int n, _ => decidable_of_iff (m = n) (by simp)
    | .float x, .float y, _ => decidable_of_iff (x = y) (by simp)
    | .bool x, .bool y, _ => decidable_of_iff (x = y) (by simp)
    | .str s, .str t, _ => decidable_of_iff (s = t) (by simp)
    | .sym x, .sym y, _ => decidable_of_iff (x = y) (by simp)
    | .expr mode xs, .expr other ys, _ =>
      have := decEqAll xs ys
      decidable_of_iff (mode = other ∧ xs = ys) (by simp)
    | .lambda fs body captured, .lambda gs other frame, _ =>
      have := body.decEq other
      have := decEqBindings captured frame
      decidable_of_iff (fs = gs ∧ body = other ∧ captured = frame) (by simp)
    | .define x v, .define y w, _ =>
      have := v.decEq w
      decidable_of_iff (x = y ∧ v = w) (by simp)
    | .cond u v w, .cond x y z, _ =>
      have := u.decEq x
      have := v.decEq y
      have := w.decEq z
      decidable_of_iff (u = x ∧ v = y ∧ w = z) (by simp)
    | .logic op xs, .logic other ys, _ =>
      have := decEqAll xs ys
      decidable_of_iff (op = other ∧ xs = ys) (by simp)
    | .builtin x, .builtin y, _ => decidable_of_iff (x = y) (by simp)
    | .seq xs, .seq ys, _ =>
      have := decEqAll xs ys
      decidable_of_iff (xs = ys) (by simp)
    | .error f, .error g, _ => decidable_of_iff (f = g) (by simp)
    | .nothing, .nothing, _ => .isTrue rfl
  else .isFalse fun e => h (congrArg Value.ctorIdx e)

def decEqAll : (xs ys : List Value) → Decidable (xs = ys)
  | [], [] => .isTrue rfl
  | [], _ :: _ => .isFalse (by simp)
  | _ :: _, [] => .isFalse (by simp)
  | x :: xs, y :: ys =>
    have := x.decEq y
    have := decEqAll xs ys
    decidable_of_iff (x = y ∧ xs = ys) (by simp)

def decEqBindings : (xs ys : List (Name × Value)) → Decidable (xs = ys)
  | [], [] => .isTrue rfl
  | [], _ :: _ => .isFalse (by simp)
  | _ :: _, [] => .isFalse (by simp)
  | (x, v) :: xs, (y, w) :: ys =>
    have := v.decEq w
    have := decEqBindings xs ys
    decidable_of_iff ((x = y ∧ v = w) ∧ xs = ys) (by simp)

end

instance : DecidableEq Value := decEq

end Value

end Lisplet
