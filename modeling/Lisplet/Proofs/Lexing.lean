import Mathlib.Data.List.TakeWhile
import Mathlib.Tactic.Common
import Lisplet.Proofs.Acceptance
import Lisplet.Value.Equality

/-! Cutting a text and reading it. A piece ends before a character that cannot be part of a
symbol, so two texts with such a character between them are cut one after the other. A text reads
without problems exactly if none of its pieces is bad and the kinds of its pieces are data. -/

namespace Lisplet

/-- A character that no symbol, number or literal goes on with. -/
def isStop (c : Char) : Bool := !isSymbolChar c

section

variable {d : Char}

theorem isDigit_of_isStop (h : isStop d) : d.isDigit = false := by
  by_contra hd
  have hs : isSymbolChar d = true := by simp_all [isSymbolChar, Char.isAlphanum]
  simp [isStop, hs] at h

theorem isSign_eq_false {p : Char → Bool} (hp : p '+' = false ∧ p '-' = false) (h : p d) :
    isSign d = false := by
  by_contra hs
  simp only [isSign, Bool.not_eq_false, Bool.or_eq_true, beq_iff_eq] at hs
  rcases hs with rfl | rfl
  · simp [hp.1] at h
  · simp [hp.2] at h

theorem isSign_of_isStop (h : isStop d) : isSign d = false := isSign_eq_false (by decide) h

theorem ne_of_isStop {c : Char} (hc : isStop c = false) (h : isStop d) : d ≠ c := by
  rintro rfl
  rw [h] at hc
  cases hc

theorem takeWhile_append_stop {p : Char → Bool} (h : p d = false) (t b : List Char) :
    (t ++ d :: b).takeWhile p = t.takeWhile p := by
  induction t with
  | nil => simp [h]
  | cons c rest ih => simp only [List.cons_append, List.takeWhile_cons, ih]

end

/-- What a function takes from the front of a text: a prefix, which a stop cannot lengthen. -/
structure TakesFront (f : List Char → List Char) : Prop where
  isPrefix (t : List Char) : f t <+: t
  stop {d : Char} (h : isStop d) (t b : List Char) : f (t ++ d :: b) = f t

namespace TakesFront

variable {f : List Char → List Char}

theorem append_drop (h : TakesFront f) (t : List Char) : f t ++ t.drop (f t).length = t := by
  obtain ⟨rest, hr⟩ := h.isPrefix t
  have hd : (f t ++ rest).drop (f t).length = rest := List.drop_left
  rw [hr] at hd
  rw [hd, hr]

theorem drop_stop (h : TakesFront f) (t : List Char) (u : List Char) :
    (t ++ u).drop (f t).length = t.drop (f t).length ++ u :=
  List.drop_append_of_le_length (h.isPrefix t).length_le

end TakesFront

namespace Numeral

theorem takesFront_digits : TakesFront (List.takeWhile Char.isDigit) where
  isPrefix _ := List.takeWhile_prefix _
  stop h t b := takeWhile_append_stop (isDigit_of_isStop h) t b

theorem takesFront_sign : TakesFront signOf where
  isPrefix t := by
    cases t with
    | nil => exact List.nil_prefix
    | cons c rest =>
      by_cases hc : isSign c = true
      · exact ⟨rest, by simp [signOf, hc]⟩
      · exact ⟨c :: rest, by simp [signOf, hc]⟩
  stop h t b := by
    cases t with
    | nil => simp [signOf, isSign_of_isStop h]
    | cons c rest => rfl

theorem takesFront_fraction : TakesFront fractionOf where
  isPrefix t := by
    unfold fractionOf
    split
    · next rest =>
      split
      · exact List.nil_prefix
      · exact List.cons_prefix_cons.mpr ⟨rfl, List.takeWhile_prefix _⟩
    · exact List.nil_prefix
  stop {d} h t b := by
    cases t with
    | nil =>
      have hd : d ≠ '.' := ne_of_isStop (by decide) h
      simp [fractionOf, hd]
    | cons c rest =>
      by_cases hc : c = '.'
      · subst c
        simp only [List.cons_append, fractionOf, takesFront_digits.stop h]
      · simp [fractionOf, hc]

theorem takesFront_exponent : TakesFront exponentOf where
  isPrefix t := by
    cases t with
    | nil => exact List.nil_prefix
    | cons e rest =>
      unfold exponentOf
      dsimp only
      split
      · split
        · exact List.nil_prefix
        · refine List.cons_prefix_cons.mpr ⟨rfl, ?_⟩
          have hp : signOf rest ++ (rest.drop (signOf rest).length).takeWhile Char.isDigit <+:
              signOf rest ++ rest.drop (signOf rest).length :=
            (List.prefix_append_right_inj _).mpr (List.takeWhile_prefix _)
          rwa [takesFront_sign.append_drop] at hp
      · exact List.nil_prefix
  stop {d} h t b := by
    cases t with
    | nil =>
      have he : d ≠ 'e' := ne_of_isStop (by decide) h
      have hE : d ≠ 'E' := ne_of_isStop (by decide) h
      simp [exponentOf, he, hE]
    | cons e rest =>
      simp only [List.cons_append, exponentOf, takesFront_sign.stop h,
        takesFront_sign.drop_stop rest, takesFront_digits.stop h]

theorem ofFront_stop {d : Char} (h : isStop d) (t b : List Char) :
    ofFront (t ++ d :: b) = ofFront t := by
  simp only [ofFront, takesFront_sign.stop h, takesFront_sign.drop_stop t,
    takesFront_digits.stop h, takesFront_digits.drop_stop, takesFront_fraction.stop h,
    takesFront_fraction.drop_stop, takesFront_exponent.stop h]

theorem ofFront_text_isPrefix (t : List Char) : (ofFront t).text <+: t := by
  -- Each part of the numeral is a prefix of what the parts before it leave.
  let u := t.drop (signOf t).length
  let v := u.drop (u.takeWhile Char.isDigit).length
  let w := v.drop (fractionOf v).length
  have ht : signOf t ++ u = t := takesFront_sign.append_drop t
  have hu : u.takeWhile Char.isDigit ++ v = u := takesFront_digits.append_drop u
  have hv : fractionOf v ++ w = v := takesFront_fraction.append_drop v
  obtain ⟨rest, hw⟩ := takesFront_exponent.isPrefix w
  refine ⟨rest, ?_⟩
  have hn : ofFront t = ⟨signOf t, u.takeWhile Char.isDigit, fractionOf v, exponentOf w⟩ := rfl
  rw [hn, text]
  simp only [List.append_assoc]
  rw [hw, hv, hu, ht]

end Numeral

namespace Lexeme

theorem stringBody_stop {t : List Char} (h : (stringBody t).2 = true) (u : List Char) :
    stringBody (t ++ u) = stringBody t := by
  fun_induction stringBody t with
  | case1 => cases h
  | case2 => rfl
  | case3 c rest body closed hb ih =>
    rw [List.cons_append, List.cons_append, stringBody, ih (by rw [hb]; exact h), hb]
  | case4 c rest hq hb body closed hr ih =>
    cases rest with
    | nil =>
      -- A text that ends here has no closing quote.
      cases hr
      cases h
    | cons e rest =>
      rw [List.cons_append, stringBody, ih (by simpa [hr] using h), hr]
      · exact hq
      · simpa using hb

theorem stringBody_isPrefix (t : List Char) :
    (if (stringBody t).2 then (stringBody t).1 ++ ['"'] else (stringBody t).1) <+: t := by
  fun_induction stringBody t with
  | case1 => exact List.nil_prefix
  | case2 rest => exact ⟨rest, rfl⟩
  | case3 c rest body closed hb ih =>
    rw [hb] at ih
    cases closed <;> simpa using ih
  | case4 c rest hq hb body closed hr ih =>
    rw [hr] at ih
    cases closed <;> simpa using ih

/-- The piece ends where the character follows it. -/
def EndsBefore (d : Char) : Lexeme → Prop
  | .unterminated _ => False
  | .comment _ => d = '\n'
  | _ => True

theorem first_comment (t : List Char) :
    first ';' t = .comment (t.takeWhile (· != '\n')) := rfl

theorem first_quote (t : List Char) :
    first '"' t = if (stringBody t).2 then .string (stringBody t).1
      else .unterminated (stringBody t).1 := rfl

theorem first_stop {c d : Char} {rest : List Char} (hd : isStop d)
    (h : (first c rest).EndsBefore d) (b : List Char) :
    first c (rest ++ d :: b) = first c rest := by
  by_cases hc : c = ';'
  · subst c
    have hl : d = '\n' := h
    rw [first_comment, first_comment, takeWhile_append_stop (by simp [hl])]
  by_cases hq : c = '"'
  · subst c
    cases hs : (stringBody rest).2 with
    | true => rw [first_quote, first_quote, stringBody_stop hs]
    | false =>
      rw [first_quote, hs] at h
      exact h.elim
  -- All other pieces are runs of symbol characters or single characters.
  have hs : isSymbolChar d = false := by simpa [isStop] using hd
  have hh : (rest ++ d :: b).head?.any Char.isDigit = rest.head?.any Char.isDigit := by
    cases rest with
    | nil => simp [isDigit_of_isStop hd]
    | cons e rest => rfl
  have hn : Numeral.ofFront (c :: (rest ++ d :: b)) = Numeral.ofFront (c :: rest) :=
    Numeral.ofFront_stop hd (c :: rest) b
  simp only [first, beq_iff_eq, hc, hq, ↓reduceIte, hh, hn, takeWhile_append_stop hs]

theorem first_text_isPrefix (c : Char) (rest : List Char) : (first c rest).text <+: c :: rest := by
  have single : [c] <+: c :: rest := ⟨rest, rfl⟩
  have run (p : Char → Bool) : c :: rest.takeWhile p <+: c :: rest :=
    List.cons_prefix_cons.mpr ⟨rfl, List.takeWhile_prefix _⟩
  by_cases hq : c = '"'
  · subst c
    have hp := stringBody_isPrefix rest
    rw [first_quote]
    split
    · next hs => exact List.cons_prefix_cons.mpr ⟨rfl, by simpa [hs] using hp⟩
    · next hs => exact List.cons_prefix_cons.mpr ⟨rfl, by simpa [hs] using hp⟩
  simp only [first, beq_iff_eq, hq, ↓reduceIte]
  split_ifs with _ hsemi hopen hclose hquote hquasi hhash
  · exact single
  · exact hsemi ▸ run _
  · exact hopen ▸ single
  · exact hclose ▸ single
  · exact hquote ▸ single
  · exact hquasi ▸ single
  · exact hhash ▸ run _
  · exact Numeral.ofFront_text_isPrefix _
  · exact run _
  · exact single

theorem cutAfter_stop {d : Char} (hd : isStop d) (b : List Char) {skip : Nat} {t : List Char}
    (hs : skip ≤ t.length) (h : ∀ piece ∈ cutAfter skip t, piece.EndsBefore d) :
    cutAfter skip (t ++ d :: b) = cutAfter skip t ++ cut (d :: b) := by
  fun_induction cutAfter skip t with
  | case1 skip =>
    obtain rfl : skip = 0 := Nat.le_zero.mp hs
    rfl
  | case2 skip c rest ih => exact ih (Nat.le_of_succ_le_succ hs) h
  | case3 c rest piece ih =>
    obtain ⟨hp, hr⟩ := List.forall_mem_cons.mp h
    have hl : piece.text.length ≤ rest.length + 1 := (first_text_isPrefix c rest).length_le
    rw [List.cons_append, cutAfter, first_stop hd hp, List.cons_append]
    exact congrArg (piece :: ·) (ih (by omega) hr)

/-- Texts are cut one after the other if the first piece of the second is a stop, at which all
pieces of the first end. -/
theorem cut_append {d : Char} (hd : isStop d) {a : List Char}
    (h : ∀ piece ∈ cut a, piece.EndsBefore d) (b : List Char) :
    cut (a ++ d :: b) = cut a ++ cut (d :: b) :=
  cutAfter_stop hd b (Nat.zero_le _) h

/-- The kind of the token that a piece is, if it is one. -/
def kind? (piece : Lexeme) : Option Token.Kind :=
  match piece.meaning with
  | .token kind => some kind
  | _ => none

/-- The kinds of the tokens among some pieces. -/
def kinds (pieces : List Lexeme) : List Token.Kind := pieces.filterMap kind?

/-- Nothing is wrong with the piece. -/
def Good (piece : Lexeme) : Prop := ∀ complaint, piece.meaning ≠ .bad complaint

theorem kind?_eq_some {piece : Lexeme} {kind : Token.Kind} :
    piece.kind? = some kind ↔ piece.meaning = .token kind := by
  unfold kind?
  cases piece.meaning <;> simp

instance : DecidablePred Good := fun piece =>
  match h : piece.meaning with
  | .bad complaint => isFalse fun hg => hg complaint h
  | .trivia => isTrue fun complaint hb => by rw [h] at hb; cases hb
  | .token kind => isTrue fun complaint hb => by rw [h] at hb; cases hb

theorem good_blank (c : Char) : (blank c).Good := by
  intro complaint h
  cases h

theorem kinds_append (xs ys : List Lexeme) : kinds (xs ++ ys) = kinds xs ++ kinds ys :=
  List.filterMap_append

theorem kinds_blank (c : Char) (pieces : List Lexeme) : kinds (.blank c :: pieces) = kinds pieces :=
  rfl

theorem meaning_ne_eof (piece : Lexeme) : piece.meaning ≠ .token .eof := by
  fun_cases meaning piece with
  | case11 n =>
    cases n.value <;> simp [atomOr]
  | _ => simp

theorem eof_not_mem_kinds (pieces : List Lexeme) : Token.Kind.eof ∉ kinds pieces := by
  intro h
  obtain ⟨piece, -, hk⟩ := List.mem_filterMap.mp h
  exact piece.meaning_ne_eof (kind?_eq_some.mp hk)

end Lexeme

namespace Scan

open Lexeme

/-- With room left, scanning has no problem exactly if no piece is bad, and then its tokens are
those of the pieces. -/
theorem ofLexemes_problems_eq_nil {room : Nat} {p : Position} {pieces : List Lexeme} :
    (ofLexemes (room + 1) p pieces).problems = [] ↔ ∀ piece ∈ pieces, piece.Good := by
  induction pieces generalizing p with
  | nil => simp [ofLexemes, endAt]
  | cons piece rest ih =>
    rw [List.forall_mem_cons]
    cases hm : piece.meaning with
    | trivia => simp [ofLexemes, hm, ih, Good]
    | token kind => simp [ofLexemes, hm, ih, Good, addToken]
    | bad complaint => simp [ofLexemes, hm, Good, addProblem]

theorem ofLexemes_kinds {room : Nat} {p : Position} {pieces : List Lexeme}
    (h : ∀ piece ∈ pieces, piece.Good) :
    (ofLexemes (room + 1) p pieces).tokens.map Token.kind = kinds pieces ++ [.eof] := by
  induction pieces generalizing p with
  | nil => rfl
  | cons piece rest ih =>
    obtain ⟨hp, hr⟩ := List.forall_mem_cons.mp h
    cases hm : piece.meaning with
    | trivia =>
      have hk : piece.kind? = none := by simp [kind?, hm]
      simp [ofLexemes, hm, kinds, hk, ih hr]
    | token kind =>
      have hk : piece.kind? = some kind := kind?_eq_some.mpr hm
      simp [ofLexemes, hm, kinds, hk, ih hr, addToken]
    | bad complaint => exact (hp complaint hm).elim

end Scan

theorem map_kind_beforeEnd (tokens : List Token) :
    (beforeEnd tokens).map Token.kind = (tokens.map Token.kind).takeWhile (· ≠ .eof) := by
  rw [beforeEnd, List.takeWhile_map]
  rfl

namespace Program

open Grammar Lexeme

theorem eq_of_problems_eq_nil {p : Program} (h : p.problems = []) : p = ⟨p.forms, []⟩ := by
  rw [← h]

/-- A text reads without problems exactly if its pieces are good and of the kinds of data. -/
theorem ofText_eq_iff {text : String} {forms : List Value} :
    ofText text = ⟨forms, []⟩ ↔
      (∀ piece ∈ cut text.toList, piece.Good) ∧ Data (kinds (cut text.toList)) forms := by
  have hscan : (Scan.ofText text).problems = [] ↔ ∀ piece ∈ cut text.toList, piece.Good :=
    Scan.ofLexemes_problems_eq_nil
  by_cases hg : ∀ piece ∈ cut text.toList, piece.Good
  · have hk : (beforeEnd (Scan.ofText text).tokens).map Token.kind = kinds (cut text.toList) := by
      rw [map_kind_beforeEnd, Scan.ofText, Report.capacity, Scan.ofLexemes_kinds hg,
        List.takeWhile_append_of_pos]
      · simp
      · intro kind hm
        simp only [ne_eq, decide_eq_true_eq]
        rintro rfl
        exact eof_not_mem_kinds _ hm
    have ht : ofText text = ofTokens (Scan.ofText text).tokens := by
      simp [ofText, hscan.mpr hg]
    rw [ht, ofTokens_eq_iff, hk]
    exact ⟨fun h => ⟨hg, h⟩, fun h => h.2⟩
  · constructor
    · intro h
      obtain ⟨problem, rest, hp⟩ := List.exists_cons_of_ne_nil (mt hscan.mp hg)
      simp [ofText, hp] at h
    · rintro ⟨h, -⟩
      exact (hg h).elim

/-- A text that is known by its characters: positions do not matter where there is no problem. -/
theorem ofText_of_chars {text : String} {chars : List Char} {forms : List Value}
    (ht : text = String.ofList chars) (hg : ∀ piece ∈ cut chars, piece.Good)
    (hf : (ofTokens ((kinds (cut chars)).map fun kind => ⟨kind, .point .origin⟩)).forms = forms)
    (hp : (ofTokens ((kinds (cut chars)).map fun kind => ⟨kind, .point .origin⟩)).problems = []) :
    ofText text = ⟨forms, []⟩ := by
  have hd := ofTokens_eq_iff.mp (eq_of_problems_eq_nil hp)
  have hk : (kinds (cut chars)).takeWhile (· ≠ .eof) = kinds (cut chars) := by
    apply List.takeWhile_eq_self_iff.mpr
    intro kind hm
    simp only [ne_eq, decide_eq_true_eq]
    rintro rfl
    exact eof_not_mem_kinds _ hm
  rw [map_kind_beforeEnd, List.map_map, Function.comp_def, List.map_id', hk] at hd
  rw [ofText_eq_iff, ht, String.toList_ofList, ← hf]
  exact ⟨hg, hd⟩

end Program

end Lisplet
