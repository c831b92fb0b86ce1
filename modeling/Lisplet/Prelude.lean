import Lisplet.Env
import Lisplet.Program

/-!
What a global frame holds before any source is run: the builtins, the mathematical constants, and the
prelude, which is written in the language itself.
-/

namespace Lisplet

namespace Env

def withBuiltins (env : Env) : Env :=
  Builtin.catalogue.foldl (fun env b => env.bind b.name (.builtin b)) env

def constants : List (Name × Float) :=
  [("_pi", 3.141592653589793), ("_tau", 6.283185307179586), ("_e", 2.718281828459045)]

def withConstants (env : Env) : Env :=
  constants.foldl (fun env c => env.bind c.1 (.float c.2)) env

/-- The environment in which the prelude is evaluated. -/
def initial (context : Context) : Env := (Env.empty context).withBuiltins.withConstants

end Env

namespace Prelude

/-- One source text a definition. Sorting picks the first cell as the pivot; the `let` binds it in
the frame of the call, where the comparison closures find it. -/
def definitions : List String :=
  ["(defun (not x) (if x #f #t))",
   "(define nil '())",
   "(defun (empty xs) (== xs nil))",
   "(defun (fst xs) (eval (head xs)))",
   "(defun (len xs) (if (empty xs) 0 (+ 1 (len (tail xs)))))",
   "(defun (drop n xs) (if (or (<= n 0) (empty xs)) xs (drop (- n 1) (tail xs))))",
   "(defun (foldl f acc xs) (if (empty xs) acc (foldl f (f acc (fst xs)) (tail xs))))",
   "(defun (map f xs) (if (empty xs) nil (join (list (f (fst xs))) (map f (tail xs)))))",
   "(defun (filter p xs)
      (if (empty xs) nil (join (if (p (fst xs)) (list (fst xs)) nil) (filter p (tail xs)))))",
   "(defun (sort xs)
      (if (empty xs)
          nil
          ((let (pivot (fst xs)) (rest (tail xs)))
           (join (sort (filter (lambda (y) (< y pivot)) rest))
                 (list pivot)
                 (sort (filter (lambda (y) (>= y pivot)) rest))))))",
   "(defun (odd n) (== (% n 2) 1))",
   "(defun (even n) (== (% n 2) 0))"]

/-- The definitions as values. -/
def forms : List Value := definitions.flatMap fun text => (Program.ofText text).forms

/-- Definitions of functions and of quoted data nest no deeper. -/
def depth : Nat := 3

end Prelude

end Lisplet
