import Lisplet.Token
import Lisplet.Value.Basic

/-! The grammar of programs: which token kinds form a datum, and the value it stands for. -/

namespace Lisplet

namespace Grammar

abbrev sym (name : Name) : Token.Kind := .atom (.sym name)

abbrev parens (ks : List Token.Kind) : List Token.Kind := .lparen :: (ks ++ [.rparen])

/-- Names that are not the head of an ordinary list. -/
def specialNames : List Name := ["if", "define", "def", "defun", "lambda", "and", "or", "let"]

/-- What follows an opening parenthesis does not start with a special name. -/
def Ordinary (ks : List Token.Kind) : Prop :=
  ∀ name rest, ks = sym name :: rest → name ∉ specialNames

/-- The name that a definition binds, with or without parentheses around it. -/
inductive Target : List Token.Kind → Name → Prop where
  | bare (name : Name) : Target [sym name] name
  | wrapped (name : Name) : Target (parens [sym name]) name

mutual

inductive Datum : List Token.Kind → Value → Prop where
  | atom (a : Atom) : Datum [.atom a] a.value
  | list {ks vs} : Ordinary ks → Data ks vs → Datum (parens ks) (.expr .plain vs)
  | marked (m : Mark) {ks vs} : Data ks vs → Datum (.mark m :: parens ks) (.expr m.quoting vs)
  | branch {as bs cs a b c} : Datum as a → Datum bs b → Datum cs c →
      Datum (parens (sym "if" :: (as ++ bs ++ cs))) (.cond a b c)
  | define {form ts ks name v} : form = "define" ∨ form = "def" → Target ts name → Datum ks v →
      Datum (parens (sym form :: (ts ++ ks))) (.define name v)
  | function {name formals ks v} : formals ≠ [] → Datum ks v →
      Datum (parens (sym "defun" :: (parens ((name :: formals).map sym) ++ ks)))
        (.define name (.lambda formals v []))
  | lambda {formals ks v} : formals ≠ [] → Datum ks v →
      Datum (parens (sym "lambda" :: (parens (formals.map sym) ++ ks))) (.lambda formals v [])
  | logic (op : Connective) {ks vs} : vs ≠ [] → Data ks vs →
      Datum (parens (sym op.name :: ks)) (.logic op vs)
  | bindings {ks ds} : ds ≠ [] → Bindings ks ds →
      Datum (parens (sym "let" :: ks)) (.expr .plain ds)

/-- Any number of data. -/
inductive Data : List Token.Kind → List Value → Prop where
  | nil : Data [] []
  | cons {ks v ls vs} : Datum ks v → Data ls vs → Data (ks ++ ls) (v :: vs)

/-- Any number of names with a datum each, as definitions. -/
inductive Bindings : List Token.Kind → List Value → Prop where
  | nil : Bindings [] []
  | cons {name ks v ls ds} : Datum ks v → Bindings ls ds →
      Bindings (parens (sym name :: ks) ++ ls) (.define name v :: ds)

end

theorem Data.single {ks : List Token.Kind} {v : Value} : Data ks [v] ↔ Datum ks v := by
  constructor
  · intro h
    cases h with
    | cons hd hn => cases hn; simpa using hd
  · intro h
    simpa using Data.cons h .nil

theorem Data.triple {ks : List Token.Kind} {a b c : Value} : Data ks [a, b, c] ↔
    ∃ as bs cs, ks = as ++ bs ++ cs ∧ Datum as a ∧ Datum bs b ∧ Datum cs c := by
  constructor
  · intro h
    cases h with
    | @cons as _ _ _ ha h =>
      cases h with
      | @cons bs _ cs _ hb h =>
        exact ⟨as, bs, cs, by simp, ha, hb, Data.single.mp h⟩
  · rintro ⟨as, bs, cs, rfl, ha, hb, hc⟩
    rw [List.append_assoc]
    exact .cons ha (.cons hb (Data.single.mpr hc))

end Grammar

end Lisplet
