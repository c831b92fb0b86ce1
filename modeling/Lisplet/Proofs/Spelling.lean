import Mathlib.Data.List.TakeWhile
import Lisplet.Proofs.Lexing

/-! Texts that spell tokens. Names, numbers and quoted strings are cut as one piece each, and the
piece means the atom again; parentheses, marks and blanks join spelled texts into longer ones. -/

namespace Lisplet

theorem isStop_of_isSpace {c : Char} (h : isSpace c) : isStop c := by
  simp only [isSpace, Bool.or_eq_true, beq_iff_eq] at h
  rcases h with (((rfl | rfl) | rfl) | rfl) | rfl <;> decide

namespace Text

/-- The characters that reading gives back from a quoted text. -/
def IsReadable (c : Char) : Prop := c = '"' ∨ c = '\\' ∨ c = '\n' ∨ c = '\t' ∨ IsPlain c

instance (c : Char) : Decidable (IsReadable c) :=
  inferInstanceAs (Decidable (_ ∨ _ ∨ _ ∨ _ ∨ _))

/-- A readable character stands for itself, or behind a backslash for what reading takes that
for. -/
theorem IsReadable.escape_eq {c : Char} (h : IsReadable c) :
    escape c = [c] ∧ c ≠ '"' ∧ c ≠ '\\' ∨
      ∃ e, escape c = ['\\', e] ∧
        ∀ rest, Lexeme.unescape ('\\' :: e :: rest) = c :: Lexeme.unescape rest := by
  rcases h with rfl | rfl | rfl | rfl | h
  · exact .inr ⟨'"', rfl, fun _ => rfl⟩
  · exact .inr ⟨'\\', rfl, fun _ => rfl⟩
  · exact .inr ⟨'n', rfl, fun _ => rfl⟩
  · exact .inr ⟨'t', rfl, fun _ => rfl⟩
  · refine .inl ⟨h, ?_, ?_⟩
    · rintro rfl
      cases h
    · rintro rfl
      cases h

end Text

namespace Lexeme

open Grammar

theorem cutAfter_length (t : List Char) : cutAfter t.length t = [] := by
  induction t with
  | nil => rfl
  | cons c rest ih => exact ih

theorem cut_eq_singleton {c : Char} {rest : List Char} {piece : Lexeme}
    (h : first c rest = piece) (ht : piece.text = c :: rest) : cut (c :: rest) = [piece] := by
  have hl : piece.text.length - 1 = rest.length := by simp [ht]
  rw [cut, cutAfter, h, hl, cutAfter_length]

theorem unescape_cons {c : Char} (h : c ≠ '\\') (rest : List Char) :
    unescape (c :: rest) = c :: unescape rest := by
  rw [unescape] <;> simp [h]

theorem stringBody_cons {c : Char} (hq : c ≠ '"') (hb : c ≠ '\\') (rest : List Char) :
    stringBody (c :: rest) = (c :: (stringBody rest).1, (stringBody rest).2) := by
  rw [stringBody] <;> simp [hq, hb]

theorem unescape_escape {s : List Char} (h : ∀ c ∈ s, Text.IsReadable c) :
    unescape (s.flatMap Text.escape) = s := by
  induction s with
  | nil => rfl
  | cons c rest ih =>
    obtain ⟨hc, hr⟩ := List.forall_mem_cons.mp h
    rw [List.flatMap_cons]
    rcases hc.escape_eq with ⟨he, -, hb⟩ | ⟨e, he, hu⟩
    · rw [he, List.singleton_append, unescape_cons hb, ih hr]
    · rw [he, List.cons_append, List.singleton_append, hu, ih hr]

theorem stringBody_escape {s : List Char} (h : ∀ c ∈ s, Text.IsReadable c) :
    stringBody (s.flatMap Text.escape ++ ['"']) = (s.flatMap Text.escape, true) := by
  induction s with
  | nil => rfl
  | cons c rest ih =>
    obtain ⟨hc, hr⟩ := List.forall_mem_cons.mp h
    rw [List.flatMap_cons, List.append_assoc]
    rcases hc.escape_eq with ⟨he, hq, hb⟩ | ⟨e, he, -⟩
    · rw [he, List.singleton_append, stringBody_cons hq hb, ih hr]
      rfl
    · rw [he, List.cons_append, List.singleton_append, stringBody, ih hr]
      rfl

/-- A character that symbols go on with starts a number or a symbol. -/
theorem first_of_isSymbolChar {c : Char} (h : isSymbolChar c) (rest : List Char) :
    first c rest = if c.isDigit || isSign c && rest.head?.any Char.isDigit then
      .numeral (.ofFront (c :: rest)) else .symbol (c :: rest.takeWhile isSymbolChar) := by
  have hs : ¬isStop c := by simp [isStop, h]
  have hspace : isSpace c = false := by
    by_contra hc
    exact hs (isStop_of_isSpace (by simpa using hc))
  have ne {d : Char} (hd : isStop d) : (c == d) = false := by
    rw [beq_eq_false_iff_ne]
    rintro rfl
    exact hs hd
  have stops : isStop ';' ∧ isStop '(' ∧ isStop ')' ∧ isStop '\'' ∧ isStop '\x60' ∧ isStop '"' ∧
      isStop '#' := by decide
  obtain ⟨h₁, h₂, h₃, h₄, h₅, h₆, h₇⟩ := stops
  simp only [first, hspace, ne h₁, ne h₂, ne h₃, ne h₄, ne h₅, ne h₆, ne h₇, h, ↓reduceIte,
    Bool.false_eq_true]

theorem first_ne_symbol {c : Char} (h : ¬isSymbolChar c) (rest name : List Char) :
    first c rest ≠ .symbol name := by
  intro hf
  by_cases hq : c = '"'
  · subst c
    rw [first_quote] at hf
    split at hf <;> cases hf
  · simp only [first, beq_iff_eq, hq, ↓reduceIte] at hf
    split_ifs at hf

/-- The text is one symbol. -/
def IsName (name : List Char) : Prop := cut name = [.symbol name]

instance : DecidablePred IsName := fun name =>
  inferInstanceAs (Decidable (cut name = [.symbol name]))

theorem any_isDigit_takeWhile (rest : List Char) :
    (rest.takeWhile isSymbolChar).head?.any Char.isDigit = rest.head?.any Char.isDigit := by
  cases rest with
  | nil => rfl
  | cons d rest =>
    by_cases hd : isSymbolChar d
    · simp [hd]
    · have hstop : isStop d := by simp [isStop, hd]
      simp [hd, isDigit_of_isStop hstop]

/-- The text of a piece that is a symbol is cut as one symbol. -/
theorem isName_of_first {c : Char} {rest name : List Char} (h : first c rest = .symbol name) :
    IsName name := by
  by_cases hc : isSymbolChar c
  · rw [first_of_isSymbolChar hc] at h
    split at h
    · cases h
    · next hn =>
      cases h
      refine cut_eq_singleton ?_ rfl
      rw [first_of_isSymbolChar hc, any_isDigit_takeWhile, if_neg hn, List.takeWhile_idem]
  · exact (first_ne_symbol hc rest name h).elim

theorem isName_of_mem_cutAfter {skip : Nat} {t name : List Char}
    (h : .symbol name ∈ cutAfter skip t) : IsName name := by
  fun_induction cutAfter skip t with
  | case1 => cases h
  | case2 skip c rest ih => exact ih h
  | case3 c rest piece ih =>
    rcases List.mem_cons.mp h with hp | h
    · exact isName_of_first hp.symm
    · exact ih h

end Lexeme

namespace Numeral

theorem isSign_of_isDigit {c : Char} (h : c.isDigit) : isSign c = false :=
  isSign_eq_false (by decide) h

section

variable {sign digits : List Char}

theorem ofFront_integer (hs : sign = [] ∨ sign = ['-']) (hd : ∀ c ∈ digits, c.isDigit) :
    ofFront (sign ++ digits) = ⟨sign, digits, [], []⟩ := by
  have hsign : signOf (sign ++ digits) = sign := by
    rcases hs with rfl | rfl
    · cases digits with
      | nil => rfl
      | cons c rest => simp [signOf, isSign_of_isDigit (hd c List.mem_cons_self)]
    · rfl
  have hwhole : digits.takeWhile Char.isDigit = digits := List.takeWhile_eq_self_iff.mpr hd
  simp only [ofFront, hsign, List.drop_left, hwhole, List.drop_length]
  rfl

/-- Digits with or without a minus are cut as one number. -/
theorem cut_integer (hs : sign = [] ∨ sign = ['-']) (hne : digits ≠ [])
    (hd : ∀ c ∈ digits, c.isDigit) :
    Lexeme.cut (sign ++ digits) = [.numeral ⟨sign, digits, [], []⟩] := by
  have hnum := ofFront_integer hs hd
  obtain ⟨c, rest, rfl⟩ := List.exists_cons_of_ne_nil hne
  have hc : c.isDigit := hd c List.mem_cons_self
  rcases hs with rfl | rfl
  · have hsym : isSymbolChar c := by simp [isSymbolChar, Char.isAlphanum, hc]
    refine Lexeme.cut_eq_singleton ?_ (by simp [Lexeme.text, text])
    rw [Lexeme.first_of_isSymbolChar hsym, hc, ← hnum]
    rfl
  · rw [List.singleton_append] at hnum ⊢
    refine Lexeme.cut_eq_singleton ?_ (by simp [Lexeme.text, text])
    have hh : (c :: rest).head?.any Char.isDigit = true := hc
    rw [Lexeme.first_of_isSymbolChar (by decide), hh, ← hnum]
    rfl

theorem value_integer {n : Int64} (h : signedValue sign digits = n.toInt) :
    value ⟨sign, digits, [], []⟩ = some (.int n) := by
  simp only [value, and_self, ↓reduceIte, h, n.minValue_le_toInt, n.toInt_le, Int64.ofInt_toInt]

end

theorem toList_repr (n : Int) : ∃ sign k, (sign = [] ∨ sign = ['-']) ∧
    n.repr.toList = sign ++ Nat.toDigits 10 k ∧ signedValue sign (Nat.toDigits 10 k) = n := by
  rw [Int.repr_eq_if]
  split
  · next h =>
    refine ⟨[], n.toNat, .inl rfl, Nat.toList_repr, ?_⟩
    simp only [signedValue, reduceCtorEq, ↓reduceIte, digitsValue, Nat.ofDigitChars_ten_toDigits]
    omega
  · next h =>
    refine ⟨['-'], (-n).toNat, .inr rfl, by simp, ?_⟩
    simp only [signedValue, ↓reduceIte, digitsValue, Nat.ofDigitChars_ten_toDigits]
    omega

end Numeral

namespace Lexeme

open Grammar

/-- Pieces that are tokens of some kinds, with blanks between them. -/
inductive Spells : List Lexeme → List Token.Kind → Prop where
  | nil : Spells [] []
  | blank {c pieces ks} : Spells pieces ks → Spells (.blank c :: pieces) ks
  | token {piece kind pieces ks} : piece.meaning = .token kind → Spells pieces ks →
      Spells (piece :: pieces) (kind :: ks)

namespace Spells

variable {ps qs : List Lexeme} {ks ls : List Token.Kind}

theorem append (h : Spells ps ks) (h' : Spells qs ls) : Spells (ps ++ qs) (ks ++ ls) := by
  induction h with
  | nil => exact h'
  | blank _ ih => exact .blank ih
  | token hm _ ih => exact .token hm ih

theorem kinds_eq (h : Spells ps ks) : kinds ps = ks := by
  induction h with
  | nil => rfl
  | blank _ ih => exact ih
  | token hm _ ih => rw [kinds, List.filterMap_cons, kind?_eq_some.mpr hm]; exact congrArg _ ih

theorem good (h : Spells ps ks) : ∀ piece ∈ ps, piece.Good := by
  induction h with
  | nil => simp
  | blank _ ih => exact List.forall_mem_cons.mpr ⟨good_blank _, ih⟩
  | token hm _ ih => exact List.forall_mem_cons.mpr ⟨fun _ hb => by simp [hm] at hb, ih⟩

theorem endsBefore (h : Spells ps ks) (d : Char) : ∀ piece ∈ ps, piece.EndsBefore d := by
  induction h with
  | nil => simp
  | blank _ ih => exact List.forall_mem_cons.mpr ⟨trivial, ih⟩
  | @token piece _ _ _ hm _ ih =>
    refine List.forall_mem_cons.mpr ⟨?_, ih⟩
    cases piece with
    | unterminated => cases hm
    | comment => cases hm
    | _ => trivial

end Spells

/-- The text is made of tokens of these kinds. -/
abbrev Writes (t : List Char) (ks : List Token.Kind) : Prop := Spells (cut t) ks

namespace Writes

variable {a b : List Char} {ks ls : List Token.Kind}

theorem nil : Writes [] [] := Spells.nil

theorem single {t : List Char} {piece : Lexeme} {kind : Token.Kind} (h : cut t = [piece])
    (hm : piece.meaning = .token kind) : Writes t [kind] := by
  rw [Writes, h]
  exact .token hm .nil

theorem append {d : Char} (hd : isStop d) (h : Writes a ks) (h' : Writes (d :: b) ls) :
    Writes (a ++ d :: b) (ks ++ ls) := by
  rw [Writes, cut_append hd (h.endsBefore d)]
  exact Spells.append h h'

theorem parens (h : Writes a ks) : Writes ('(' :: (a ++ [')'])) (parens ks) :=
  .token rfl (h.append (by decide) (.token rfl .nil))

theorem marked (m : Mark) (h : Writes a ks) : Writes (markText m :: a) (.mark m :: ks) := by
  cases m <;> exact .token rfl h

theorem spaced {d : Char} (hd : isSpace d) (h : Writes a ks) (h' : Writes b ls) :
    Writes (a ++ d :: b) (ks ++ ls) := by
  have hf : first d b = .blank d := by simp [first, hd]
  refine h.append (isStop_of_isSpace hd) ?_
  rw [Writes, cut, cutAfter, hf]
  exact .blank h'

/-- Texts with blanks between them, one after another. -/
theorem intercalate_cons {d : Char} (hd : isSpace d) {ts : List (List Char)} (h : Writes a ks)
    (h' : Writes ([d].intercalate ts) ls) : Writes ([d].intercalate (a :: ts)) (ks ++ ls) := by
  cases ts with
  | nil =>
    cases h'
    simpa using h
  | cons t rest => exact h.spaced hd h'

end Writes

theorem writes_name {name : Name} (h : IsName name.toList) : Writes name.toList [sym name] :=
  .single h (by simp [meaning])

theorem writes_bool (b : Bool) : Writes (boolText b).toList [.atom (.bool b)] := by
  have ht : cut "#t".toList = [.hash ['t']] := rfl
  have hf : cut "#f".toList = [.hash ['f']] := rfl
  cases b
  · exact .single hf rfl
  · exact .single ht rfl

theorem writes_quote {s : String} (h : ∀ c ∈ s.toList, Text.IsReadable c) :
    Writes (Text.quote s).toList [.atom (.str s)] := by
  have hf : first '"' (s.toList.flatMap Text.escape ++ ['"']) =
      .string (s.toList.flatMap Text.escape) := by
    rw [first_quote, stringBody_escape h]
    rfl
  rw [Text.quote, String.toList_ofList]
  refine .single (cut_eq_singleton hf rfl) ?_
  rw [meaning, unescape_escape h, String.ofList_toList]

theorem writes_integer (n : Int64) : Writes (Int.repr n.toInt).toList [.atom (.int n)] := by
  obtain ⟨sign, k, hs, ht, hv⟩ := Numeral.toList_repr n.toInt
  have hd : ∀ c ∈ Nat.toDigits 10 k, c.isDigit := fun c hc =>
    Nat.isDigit_of_mem_toDigits (by decide) (by decide) hc
  rw [ht]
  refine .single (Numeral.cut_integer hs Nat.toDigits_ne_nil hd) ?_
  rw [meaning, Numeral.value_integer hv]
  rfl

/-- All symbols among the kinds have names that are cut as one symbol. -/
def Named (ks : List Token.Kind) : Prop := ∀ name, sym name ∈ ks → IsName name.toList

section

variable {ks ls : List Token.Kind}

theorem named_append : Named (ks ++ ls) ↔ Named ks ∧ Named ls := by
  simp only [Named, List.mem_append, or_imp, forall_and]

theorem named_mark {m : Mark} : Named (.mark m :: ks) ↔ Named ks := by
  simp [Named]

theorem named_parens : Named (parens ks) ↔ Named ks := by
  simp [Named]

theorem named_form {name : Name} :
    Named (parens (sym name :: ks)) ↔ IsName name.toList ∧ Named ks := by
  rw [named_parens]
  simp [Named, or_imp, forall_and]

end

theorem eq_symbol_of_meaning {piece : Lexeme} {name : Name}
    (h : piece.meaning = .token (sym name)) : piece = .symbol name.toList := by
  fun_cases meaning piece with
  | case11 n =>
    simp only [meaning, Numeral.value] at h
    split_ifs at h <;> simp [atomOr] at h
  | case12 cs =>
    simp only [meaning, Meaning.token.injEq, Token.Kind.atom.injEq, Atom.sym.injEq] at h
    rw [← h, String.toList_ofList]
  | case10 => simp [meaning] at h
  | _ => cases h

theorem named_kinds_cut (t : List Char) : Named (kinds (cut t)) := by
  intro name h
  obtain ⟨piece, hm, hk⟩ := List.mem_filterMap.mp h
  obtain rfl := eq_symbol_of_meaning (kind?_eq_some.mp hk)
  exact isName_of_mem_cutAfter hm

end Lexeme

end Lisplet
