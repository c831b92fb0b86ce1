import Mathlib.Tactic.Common
import Lisplet.Proofs.Occurrence
import Lisplet.Proofs.Spelling
import Lisplet.Value.Printer

/-! Reading undoes printing. The text of a value that was read spells a datum of the same value
again, though not always the datum it was read from: `let` and a wrapped target are printed
another way. -/

namespace Lisplet

open Grammar Lexeme

/-- Closures and doubles are not printed as they are read, nor are some characters of strings. -/
def Value.Legible : Value → Prop
  | .lambda _ _ _ | .float _ => False
  | .str s => ∀ c ∈ s.toList, Text.IsReadable c
  | _ => True

instance : DecidablePred Value.Legible
  | .lambda _ _ _ | .float _ => inferInstanceAs (Decidable False)
  | .str s => List.decidableBAll Text.IsReadable s.toList
  | .int _ | .bool _ | .sym _ | .expr _ _ | .define _ _ | .cond _ _ _ | .logic _ _ | .builtin _
  | .seq _ | .error _ | .nothing => inferInstanceAs (Decidable True)

namespace Grammar

theorem Datum.symbol_iff {ks : List Token.Kind} {v : Value} (h : Datum ks v) (ls : List Token.Kind)
    (name : Name) : (∃ rest, ks ++ ls = sym name :: rest) ↔ v = .sym name := by
  cases h with
  | atom a => cases a <;> simp [Atom.value]
  | _ => simp

/-- Whether a list is ordinary can be seen from its values. -/
theorem Data.ordinary_iff {ks : List Token.Kind} {vs : List Value} (h : Data ks vs) :
    Ordinary ks ↔ ∀ name rest, vs = .sym name :: rest → name ∉ specialNames := by
  cases h with
  | nil => simp [Ordinary]
  | @cons ks v ls vs hd _ =>
    constructor
    · intro ho name rest hv
      obtain ⟨tail, ht⟩ := (hd.symbol_iff ls name).mpr (List.cons.inj hv).1
      exact ho name tail ht
    · intro hv name tail ht
      exact hv name vs (by rw [(hd.symbol_iff ls name).mp ⟨tail, ht⟩])

end Grammar

namespace Value

theorem texts_eq_map (vs : List Value) : texts vs = vs.map text := by
  induction vs with
  | nil => rfl
  | cons v rest ih => rw [texts, ih, List.map_cons]

/-- The texts of values with a character between them. -/
def joined (d : Char) (vs : List Value) : List Char := [d].intercalate (vs.map fun v => v.text.toList)

/-- The text of the value spells a datum of the value. -/
def ReadsBack (v : Value) : Prop := ∃ ks, Writes v.text.toList ks ∧ Datum ks v

/-- The texts of the values, with blanks of any sort between them, spell data of the values. -/
def AllReadBack (vs : List Value) : Prop :=
  ∃ ks, (∀ d, isSpace d → Writes (joined d vs) ks) ∧ Data ks vs

theorem allReadBack_nil : AllReadBack [] := ⟨[], fun _ _ => Writes.nil, .nil⟩

theorem AllReadBack.cons {v : Value} {vs : List Value} (h : v.ReadsBack) (hs : AllReadBack vs) :
    AllReadBack (v :: vs) := by
  obtain ⟨ks, hw, hd⟩ := h
  obtain ⟨ls, hws, hds⟩ := hs
  exact ⟨ks ++ ls, fun d hb => hw.intercalate_cons hb (hws d hb), .cons hd hds⟩

theorem readsBack_atom {a : Atom} (hn : Named [.atom a]) (hl : a.value.Legible) :
    a.value.ReadsBack := by
  refine ⟨[.atom a], ?_, .atom a⟩
  cases a with
  | int n => exact writes_integer n
  | float x => exact hl.elim
  | bool b => exact writes_bool b
  | str s => exact writes_quote hl
  | sym name => exact writes_name (hn name List.mem_cons_self)

/-- A form with its name in front. -/
theorem writes_form {form : Name} (hf : form ∈ specialNames) {t : List Char}
    {ks : List Token.Kind} (h : Writes t ks) :
    Writes ('(' :: (form.toList ++ ' ' :: t ++ [')'])) (parens (Grammar.sym form :: ks)) := by
  have names : ∀ name ∈ specialNames, IsName name.toList := by decide
  exact ((writes_name (names form hf)).spaced rfl h).parens

theorem AllReadBack.list {vs : List Value} (h : AllReadBack vs)
    (ho : ∀ name rest, vs = .sym name :: rest → name ∉ specialNames) :
    (expr .plain vs).ReadsBack := by
  obtain ⟨ks, hw, hd⟩ := h
  refine ⟨parens ks, ?_, .list (hd.ordinary_iff.mpr ho) hd⟩
  have ht : (expr .plain vs).text.toList = '(' :: (joined ' ' vs ++ [')']) := by
    simp [text, Quoting.mark, joined, texts_eq_map, Function.comp_def]
  rw [ht]
  exact (hw ' ' rfl).parens

theorem AllReadBack.marked {vs : List Value} (h : AllReadBack vs) (m : Mark) :
    (expr m.quoting vs).ReadsBack := by
  obtain ⟨ks, hw, hd⟩ := h
  refine ⟨.mark m :: parens ks, ?_, .marked m hd⟩
  have ht : (expr m.quoting vs).text.toList = markText m :: '(' :: (joined ' ' vs ++ [')']) := by
    cases m <;>
      simp [text, Mark.quoting, Quoting.mark, markText, joined, texts_eq_map, Function.comp_def]
  rw [ht]
  exact (hw ' ' rfl).parens.marked m

theorem ReadsBack.branch {a b c : Value} (ha : a.ReadsBack) (hb : b.ReadsBack)
    (hc : c.ReadsBack) : (cond a b c).ReadsBack := by
  obtain ⟨ks, hw, hd⟩ := AllReadBack.cons ha (.cons hb (.cons hc allReadBack_nil))
  obtain ⟨as, bs, cs, rfl, ha, hb, hc⟩ := Data.triple.mp hd
  refine ⟨_, ?_, .branch ha hb hc⟩
  have ht : (cond a b c).text.toList =
      '(' :: ("if".toList ++ ' ' :: joined ' ' [a, b, c] ++ [')']) := by
    simp [text, joined, List.intercalate]
  rw [ht]
  exact writes_form (by decide) (hw ' ' rfl)

theorem AllReadBack.logic {vs : List Value} (h : AllReadBack vs) (op : Connective)
    (hne : vs ≠ []) : (logic op vs).ReadsBack := by
  obtain ⟨ks, hw, hd⟩ := h
  refine ⟨_, ?_, .logic op hne hd⟩
  have hop : op.name ∈ specialNames := by cases op <;> decide
  have ht : (Value.logic op vs).text.toList =
      '(' :: (op.name.toList ++ ' ' :: joined ' ' vs ++ [')']) := by
    simp [text, joined, texts_eq_map, Function.comp_def]
  rw [ht]
  exact writes_form hop (hw ' ' rfl)

theorem ReadsBack.define {name : Name} {v : Value} (hn : IsName name.toList) (h : v.ReadsBack) :
    (define name v).ReadsBack := by
  obtain ⟨ks, hw, hd⟩ := h
  refine ⟨_, ?_, .define (.inl rfl) (.bare name) hd⟩
  have ht : (Value.define name v).text.toList =
      '(' :: ("define".toList ++ ' ' :: (name.toList ++ ' ' :: v.text.toList) ++ [')']) := by
    simp [text]
  have hb : isSpace ' ' := rfl
  rw [ht]
  exact writes_form (by decide) ((writes_name hn).spaced hb hw)

end Value

namespace Grammar

open Value

theorem Target.isName {ts : List Token.Kind} {name : Name} (h : Target ts name) (hn : Named ts) :
    IsName name.toList := by
  cases h <;> exact hn name (by simp)

-- The induction is on how the value was read.
mutual

theorem Datum.readsBack {ks : List Token.Kind} {v : Value} :
    Datum ks v → Named ks → v.Everywhere Legible → v.ReadsBack
  | .atom a, hn, hl => readsBack_atom hn hl.here
  | .list ho h, hn, hl =>
    (h.allReadBack (named_parens.mp hn) (everywhere_expr.mp hl).2).list (h.ordinary_iff.mp ho)
  | .marked m h, hn, hl =>
    (h.allReadBack (named_parens.mp (named_mark.mp hn)) (everywhere_expr.mp hl).2).marked m
  | .branch ha hb hc, hn, hl => by
    obtain ⟨-, hn⟩ := named_form.mp hn
    obtain ⟨hn, hnc⟩ := named_append.mp hn
    obtain ⟨hna, hnb⟩ := named_append.mp hn
    obtain ⟨-, hla, hlb, hlc⟩ := everywhere_cond.mp hl
    exact .branch (ha.readsBack hna hla) (hb.readsBack hnb hlb) (hc.readsBack hnc hlc)
  | .define _ ht h, hn, hl => by
    obtain ⟨-, hn⟩ := named_form.mp hn
    obtain ⟨hnt, hnv⟩ := named_append.mp hn
    exact (h.readsBack hnv (everywhere_define.mp hl).2).define (ht.isName hnt)
  | .function _ _, _, hl => (everywhere_define.mp hl).2.here.elim
  | .lambda _ _, _, hl => hl.here.elim
  | .logic op hne h, hn, hl =>
    (h.allReadBack (named_form.mp hn).2 (everywhere_logic.mp hl).2).logic op hne
  | .bindings _ h, hn, hl => by
    refine (h.allReadBack (named_form.mp hn).2 (everywhere_expr.mp hl).2).list ?_
    -- The bindings are printed as a list of definitions, which does not start with a symbol.
    intro name rest hd
    cases h <;> cases hd

theorem Data.allReadBack {ks : List Token.Kind} {vs : List Value} :
    Data ks vs → Named ks → (∀ v ∈ vs, v.Everywhere Legible) → AllReadBack vs
  | .nil, _, _ => allReadBack_nil
  | .cons h hs, hn, hl => by
    obtain ⟨hn, hns⟩ := named_append.mp hn
    obtain ⟨hl, hls⟩ := List.forall_mem_cons.mp hl
    exact .cons (h.readsBack hn hl) (hs.allReadBack hns hls)

theorem Bindings.allReadBack {ks : List Token.Kind} {ds : List Value} :
    Bindings ks ds → Named ks → (∀ d ∈ ds, d.Everywhere Legible) → AllReadBack ds
  | .nil, _, _ => allReadBack_nil
  | .cons h hs, hn, hl => by
    obtain ⟨hn, hns⟩ := named_append.mp hn
    obtain ⟨hname, hn⟩ := named_form.mp hn
    obtain ⟨hl, hls⟩ := List.forall_mem_cons.mp hl
    have hv := h.readsBack hn (everywhere_define.mp hl).2
    exact .cons (hv.define hname) (hs.allReadBack hns hls)

end

end Grammar

namespace Program

/-- Reading a source without problems, printing its forms on lines of their own and reading that
gives the same forms, quoting modes included, if no form has a closure or a double in it and no
string a character that quoting writes in a way that reading does not know. -/
theorem ofText_lines {text : String} (h : (ofText text).problems = [])
    (hl : ∀ form ∈ (ofText text).forms, form.Everywhere Value.Legible) :
    ofText ("\n".intercalate ((ofText text).forms.map Value.text)) = ⟨(ofText text).forms, []⟩ := by
  obtain ⟨-, hd⟩ := ofText_eq_iff.mp (eq_of_problems_eq_nil h)
  obtain ⟨ks, hw, hd'⟩ := hd.allReadBack (named_kinds_cut _) hl
  have ht : ("\n".intercalate ((ofText text).forms.map Value.text)).toList =
      Value.joined '\n' (ofText text).forms := by
    rw [String.toList_intercalate, List.map_map]
    rfl
  have hlines := hw '\n' rfl
  rw [ofText_eq_iff, ht, hlines.kinds_eq]
  exact ⟨hlines.good, hd'⟩

/-- Bindings and a wrapped target are printed another way; special names are data under a mark. -/
theorem ofText_lines_bindings :
    let forms : List Value :=
      [.expr .plain [.define "x" (.int (-9223372036854775808))], .define "-" (.str "a\"\n"),
        .expr .quoted [.sym "if", .expr .quasi [.sym ".5", .sym "--1"]]]
    ofText "(let (x -9223372036854775808)) (def (-) \"a\\\"\\n\") '(if `(.5 --1)) ; e" = ⟨forms, []⟩ ∧
      ofText "((define x -9223372036854775808))\n(define - \"a\\\"\\n\")\n'(if `(.5 --1))" =
        ⟨forms, []⟩ := by
  intro forms
  have h : ofText "(let (x -9223372036854775808)) (def (-) \"a\\\"\\n\") '(if `(.5 --1)) ; e" =
      ⟨forms, []⟩ := by
    apply ofText_of_chars rfl <;> decide +kernel
  have hread := ofText_lines (by rw [h]) (by rw [h]; decide)
  rw [h] at hread
  exact ⟨h, hread⟩

end Program

end Lisplet
