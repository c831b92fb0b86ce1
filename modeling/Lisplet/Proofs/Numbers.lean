import Mathlib.Data.List.TakeWhile
import Mathlib.Tactic.Common
import Lisplet.Proofs.Spelling

/-! Numbers as they may be written, and what they stand for. A text that starts like a number is cut
after the longest of its prefixes that is one. -/

namespace Lisplet

namespace Lexicon

/-- One or more digits. -/
structure Digits where
  chars : List Char
  ne_nil : chars ≠ []
  isDigit : ∀ c ∈ chars, c.isDigit

inductive Sign where
  | none
  | plus
  | minus

namespace Sign

def text : Sign → List Char
  | none => []
  | plus => ['+']
  | minus => ['-']

def apply {α : Type} [Neg α] : Sign → α → α
  | minus, a => -a
  | _, a => a

end Sign

structure Exponent where
  letter : Char
  isLetter : letter = 'e' ∨ letter = 'E'
  sign : Sign
  digits : Digits

/-- A sign, digits, digits after a point, and an exponent; all but the digits may be missing. -/
structure Number where
  sign : Sign
  whole : Digits
  fraction : Option Digits
  exponent : Option Exponent

namespace Number

def fractionText : Option Digits → List Char
  | none => []
  | some digits => '.' :: digits.chars

def exponentText : Option Exponent → List Char
  | none => []
  | some e => e.letter :: (e.sign.text ++ e.digits.chars)

def text (n : Number) : List Char :=
  n.sign.text ++ n.whole.chars ++ fractionText n.fraction ++ exponentText n.exponent

/-- The digits after the point. -/
def places (n : Number) : List Char :=
  match n.fraction with
  | none => []
  | some digits => digits.chars

/-- The power of ten that the exponent asks for. -/
def power (n : Number) : Int :=
  match n.exponent with
  | none => 0
  | some e => e.sign.apply (Nat.ofDigitChars 10 e.digits.chars 0 : Int)

/-- What the number stands for: an integer of 64 bits if there is neither a fraction nor an exponent,
and otherwise the double nearest to the decimal. -/
def Means (n : Number) : Atom → Prop
  | .int k => (n.fraction = none ∧ n.exponent = none) ∧
      k.toInt = n.sign.apply (Nat.ofDigitChars 10 n.whole.chars 0 : Int)
  | .float x => ¬(n.fraction = none ∧ n.exponent = none) ∧
      x = n.sign.apply (Decimal.mk (Nat.ofDigitChars 10 (n.whole.chars ++ n.places) 0)
        (n.power - n.places.length)).toFloat
  | _ => False

/-- The number as it is cut. -/
def toNumeral (n : Number) : Numeral :=
  ⟨n.sign.text, n.whole.chars, fractionText n.fraction, exponentText n.exponent⟩

theorem text_toNumeral (n : Number) : n.toNumeral.text = n.text := rfl

end Number

/-- A digit, or a sign and a digit. -/
def StartsNumber (t : List Char) : Prop :=
  ∃ (s : Sign) (d : Char) (rest : List Char), d.isDigit ∧ t = s.text ++ d :: rest

theorem exists_sign (t : List Char) : ∃ s : Sign, Numeral.signOf t = s.text := by
  cases t with
  | nil => exact ⟨.none, rfl⟩
  | cons c rest =>
    by_cases hp : c = '+'
    · exact ⟨.plus, by rw [hp]; rfl⟩
    by_cases hm : c = '-'
    · exact ⟨.minus, by rw [hm]; rfl⟩
    exact ⟨.none, by simp [Numeral.signOf, isSign, hp, hm, Sign.text]⟩

theorem Sign.signOf_append (s : Sign) {d : Char} (hd : d.isDigit) (rest : List Char) :
    Numeral.signOf (s.text ++ d :: rest) = s.text := by
  cases s with
  | plus | minus => rfl
  | none => simp [text, Numeral.signOf, Numeral.isSign_of_isDigit hd]

theorem Sign.apply_eq {α : Type} [Neg α] (s : Sign) (a : α) :
    s.apply a = if s.text = ['-'] then -a else a := by
  cases s <;> rfl

theorem startsNumber_cons {c : Char} {rest : List Char} :
    StartsNumber (c :: rest) ↔ (c.isDigit || isSign c && rest.head?.any Char.isDigit) = true := by
  constructor
  · rintro ⟨s, d, more, hd, ht⟩
    cases s <;> cases ht <;> simp [hd, isSign]
  · intro h
    rw [Bool.or_eq_true, Bool.and_eq_true] at h
    rcases h with hc | ⟨hs, hd⟩
    · exact ⟨.none, c, rest, hc, rfl⟩
    · cases rest with
      | nil => cases hd
      | cons d more =>
        simp only [isSign, Bool.or_eq_true, beq_iff_eq] at hs
        rcases hs with rfl | rfl
        · exact ⟨.plus, d, more, hd, rfl⟩
        · exact ⟨.minus, d, more, hd, rfl⟩

namespace Digits

variable (ds : Digits)

theorem exists_cons : ∃ d rest, ds.chars = d :: rest ∧ d.isDigit := by
  obtain ⟨d, rest, h⟩ := List.exists_cons_of_ne_nil ds.ne_nil
  exact ⟨d, rest, h, ds.isDigit d (by simp [h])⟩

theorem takeWhile_append (rest : List Char) :
    (ds.chars ++ rest).takeWhile Char.isDigit = ds.chars ++ rest.takeWhile Char.isDigit :=
  List.takeWhile_append_of_pos ds.isDigit

/-- The digits at the front of a text. -/
def front (t : List Char) (h : t.takeWhile Char.isDigit ≠ []) : Digits :=
  ⟨t.takeWhile Char.isDigit, h, fun _ hc => List.mem_takeWhile_imp hc⟩

end Digits

namespace Number

section

variable {rest : List Char}

theorem fractionOf_point (h : rest.takeWhile Char.isDigit ≠ []) :
    Numeral.fractionOf ('.' :: rest) = '.' :: rest.takeWhile Char.isDigit := by
  rw [Numeral.fractionOf]
  split
  · contradiction
  · rfl

theorem exponentOf_letter {e : Char} (he : e = 'e' ∨ e = 'E') (s : Sign) {d : Char}
    (hd : d.isDigit) : Numeral.exponentOf (e :: (s.text ++ d :: rest)) =
      e :: (s.text ++ (d :: rest).takeWhile Char.isDigit) := by
  have hl : (e == 'e' || e == 'E') = true := by simpa using he
  have ht : (d :: rest).takeWhile Char.isDigit = d :: rest.takeWhile Char.isDigit := by simp [hd]
  simp only [Numeral.exponentOf, hl, ↓reduceIte, s.signOf_append hd, List.drop_left, ht]
  rfl

theorem fraction_isPrefix {o : Option Digits} (h : fractionText o <+: rest) :
    fractionText o <+: Numeral.fractionOf rest := by
  cases o with
  | none => exact List.nil_prefix
  | some ds =>
    obtain ⟨more, rfl⟩ := h
    have hd : (ds.chars ++ more).takeWhile Char.isDigit ≠ [] := by simp [ds.takeWhile_append, ds.ne_nil]
    rw [fractionText, List.cons_append, fractionOf_point hd, ds.takeWhile_append]
    exact ⟨_, rfl⟩

theorem exponent_isPrefix {o : Option Exponent} (h : exponentText o <+: rest) :
    exponentText o <+: Numeral.exponentOf rest := by
  cases o with
  | none => exact List.nil_prefix
  | some e =>
    obtain ⟨more, rfl⟩ := h
    obtain ⟨d, ds, hc, hd⟩ := e.digits.exists_cons
    have ht := e.digits.takeWhile_append more
    rw [hc, List.cons_append] at ht
    rw [exponentText, hc, List.cons_append, List.append_assoc, List.cons_append,
      exponentOf_letter e.isLetter e.sign hd, ht]
    exact ⟨more.takeWhile Char.isDigit, by simp⟩

end

/-- A part that may be empty is followed by one that starts differently. -/
theorem part_isPrefix {a b part rest : List Char} {p : Char → Prop} (ha : a <+: part)
    (hp : ∀ c ∈ part, p c) (hb : ∀ c ∈ b.head?, ¬p c) (h : a ++ b <+: part ++ rest) :
    (a = part ∧ b <+: rest) ∨ (b = [] ∧ a.length < part.length) := by
  obtain ⟨more, rfl⟩ := ha
  rw [List.append_assoc, List.prefix_append_right_inj] at h
  cases more with
  | nil => exact .inl ⟨by simp, h⟩
  | cons c more =>
    cases b with
    | nil => exact .inr ⟨rfl, by simp⟩
    | cons d b =>
      obtain ⟨rfl, -⟩ := List.cons_prefix_cons.mp h
      exact (hb d rfl (hp d (by simp))).elim

theorem exists_digit (n : Number) : ∃ d more, d.isDigit ∧ n.text = n.sign.text ++ d :: more := by
  obtain ⟨d, ds, hc, hd⟩ := n.whole.exists_cons
  refine ⟨d, ds ++ (fractionText n.fraction ++ exponentText n.exponent), hd, ?_⟩
  simp only [text, hc, List.append_assoc, List.cons_append]

theorem text_ne_nil (n : Number) : n.text ≠ [] := by
  obtain ⟨d, more, -, ht⟩ := n.exists_digit
  rw [ht]
  exact List.append_ne_nil_of_right_ne_nil _ (List.cons_ne_nil _ _)

theorem startsNumber (n : Number) {t : List Char} (h : n.text <+: t) : StartsNumber t := by
  obtain ⟨rest, rfl⟩ := h
  obtain ⟨d, more, hd, ht⟩ := n.exists_digit
  exact ⟨n.sign, d, more ++ rest, hd, by rw [ht, List.append_assoc, List.cons_append]⟩

theorem exponent_head {o : Option Exponent} {c : Char} (h : c ∈ (exponentText o).head?) :
    c = 'e' ∨ c = 'E' := by
  cases o with
  | none => cases h
  | some e =>
    cases h
    exact e.isLetter

theorem fraction_head {o : Option Digits} {c : Char} (h : c ∈ (fractionText o).head?) : c = '.' := by
  cases o with
  | none => cases h
  | some e =>
    cases h
    rfl

theorem isDigit_of_mem_fractionOf {v : List Char} {c : Char} (h : c ∈ Numeral.fractionOf v) :
    c = '.' ∨ c.isDigit := by
  unfold Numeral.fractionOf at h
  split at h
  · split at h
    · cases h
    · rcases List.mem_cons.mp h with rfl | hc
      · exact .inl rfl
      · exact .inr (List.mem_takeWhile_imp hc)
  · cases h

/-- What follows the digits is taken as it is written, or something longer is taken. -/
theorem tail_eq_or_length_lt {o : Option Digits} {e : Option Exponent} {v : List Char}
    (h : fractionText o ++ exponentText e <+: v) :
    (fractionText o = Numeral.fractionOf v ∧
      exponentText e = Numeral.exponentOf (v.drop (Numeral.fractionOf v).length)) ∨
    (fractionText o ++ exponentText e).length <
      (Numeral.fractionOf v ++ Numeral.exponentOf (v.drop (Numeral.fractionOf v).length)).length := by
  have ho := fraction_isPrefix ((List.prefix_append _ _).trans h)
  have hb : ∀ c ∈ (exponentText e).head?, ¬(c = '.' ∨ c.isDigit) := by
    intro c hc
    rcases exponent_head hc with rfl | rfl <;> decide
  rw [← Numeral.takesFront_fraction.append_drop v] at h
  rcases part_isPrefix ho (fun _ => isDigit_of_mem_fractionOf) hb h with ⟨hf, hx⟩ | ⟨hx, hl⟩
  · have hp := exponent_isPrefix hx
    by_cases hlen : (exponentText e).length = (Numeral.exponentOf
        (v.drop (Numeral.fractionOf v).length)).length
    · exact .inl ⟨hf, hp.eq_of_length hlen⟩
    · have := hp.length_le
      simp only [List.length_append, hf]
      omega
  · simp only [List.length_append, hx, List.length_nil]
    omega

/-- No number at the front of a text is longer than what is cut off there. -/
theorem eq_ofFront_or_length_lt (n : Number) {t : List Char} (h : n.text <+: t) :
    n.toNumeral = Numeral.ofFront t ∨ n.text.length < (Numeral.ofFront t).text.length := by
  let u := t.drop (Numeral.signOf t).length
  let v := u.drop (u.takeWhile Char.isDigit).length
  have ht : Numeral.signOf t ++ u = t := Numeral.takesFront_sign.append_drop t
  have hu : u.takeWhile Char.isDigit ++ v = u := Numeral.takesFront_digits.append_drop u
  have hn : Numeral.ofFront t = ⟨Numeral.signOf t, u.takeWhile Char.isDigit, Numeral.fractionOf v,
    Numeral.exponentOf (v.drop (Numeral.fractionOf v).length)⟩ := rfl
  have hsign : Numeral.signOf t = n.sign.text := by
    obtain ⟨rest, rfl⟩ := h
    obtain ⟨d, more, hd, hm⟩ := n.exists_digit
    rw [hm, List.append_assoc, List.cons_append, n.sign.signOf_append hd]
  have hwhole : n.whole.chars ++ (fractionText n.fraction ++ exponentText n.exponent) <+: u := by
    rw [← ht, hsign, text, List.append_assoc, List.append_assoc] at h
    exact (List.prefix_append_right_inj _).mp h
  have hdigits : n.whole.chars <+: u.takeWhile Char.isDigit := by
    obtain ⟨rest, hr⟩ := (List.prefix_append _ _).trans hwhole
    rw [← hr, n.whole.takeWhile_append]
    exact List.prefix_append _ _
  have hb : ∀ c ∈ (fractionText n.fraction ++ exponentText n.exponent).head?, ¬c.isDigit := by
    intro c hc
    rw [List.head?_append, Option.mem_def, Option.or_eq_some_iff] at hc
    rcases hc with hc | ⟨-, hc⟩
    · rw [fraction_head hc]
      decide
    · rcases exponent_head hc with rfl | rfl <;> decide
  rw [← hu] at hwhole
  rw [hn, toNumeral, text, Numeral.text, hsign]
  rcases part_isPrefix hdigits (fun _ hc => List.mem_takeWhile_imp hc) hb hwhole with
    ⟨hw, htail⟩ | ⟨htail, hl⟩
  · rcases tail_eq_or_length_lt htail with ⟨hf, hx⟩ | hlt
    · exact .inl (by rw [hw, hf, hx])
    · right
      simp only [List.length_append] at hlt ⊢
      rw [hw]
      omega
  · right
    obtain ⟨hf, hx⟩ := List.append_eq_nil_iff.mp htail
    simp only [List.length_append, hf, hx, List.length_nil]
    omega

theorem exists_fraction (v : List Char) : ∃ o, fractionText o = Numeral.fractionOf v := by
  unfold Numeral.fractionOf
  split
  · next rest =>
    split
    · exact ⟨none, rfl⟩
    · next hd => exact ⟨some (.front rest hd), rfl⟩
  · exact ⟨none, rfl⟩

theorem exists_exponent (v : List Char) : ∃ o, exponentText o = Numeral.exponentOf v := by
  cases v with
  | nil => exact ⟨none, rfl⟩
  | cons e rest =>
    by_cases he : (e == 'e' || e == 'E') = true
    · obtain ⟨s, hs⟩ := exists_sign rest
      simp only [Numeral.exponentOf, he, ↓reduceIte, hs]
      split
      · exact ⟨none, rfl⟩
      · next hd => exact ⟨some ⟨e, by simpa using he, s, .front _ hd⟩, rfl⟩
    · exact ⟨none, by simp [Numeral.exponentOf, he, exponentText]⟩

theorem exists_ofFront {t : List Char} (h : StartsNumber t) :
    ∃ n : Number, n.toNumeral = Numeral.ofFront t := by
  obtain ⟨s, d, rest, hd, rfl⟩ := h
  let v := (d :: rest).drop ((d :: rest).takeWhile Char.isDigit).length
  have hw : (d :: rest).takeWhile Char.isDigit ≠ [] := by simp [hd]
  obtain ⟨o, ho⟩ := exists_fraction v
  obtain ⟨e, he⟩ := exists_exponent (v.drop (Numeral.fractionOf v).length)
  refine ⟨⟨s, .front (d :: rest) hw, o, e⟩, ?_⟩
  simp only [Numeral.ofFront, s.signOf_append hd, List.drop_left, toNumeral, ho, he, Digits.front, v]

section

variable (n : Number)

theorem fraction_eq_nil : fractionText n.fraction = [] ↔ n.fraction = none := by
  cases n.fraction <;> simp [fractionText]

theorem exponent_eq_nil : exponentText n.exponent = [] ↔ n.exponent = none := by
  cases n.exponent <;> simp [exponentText]

theorem places_eq_drop : (fractionText n.fraction).drop 1 = n.places := by
  rw [places]
  cases n.fraction <;> rfl

theorem exponentValue_toNumeral : n.toNumeral.exponentValue = n.power := by
  rw [Numeral.exponentValue, toNumeral, power]
  cases n.exponent with
  | none => rfl
  | some e =>
    obtain ⟨d, ds, hc, hd⟩ := e.digits.exists_cons
    simp only [exponentText, List.drop_one, List.tail_cons, hc, e.sign.signOf_append hd, List.drop_left]
    cases e.sign <;> rfl

end

/-- The integer of 64 bits, if the number is in range. -/
theorem toInt_eq_iff {k : Int} {j : Int64} : j.toInt = k ↔
    (if Int64.minValue.toInt ≤ k ∧ k ≤ Int64.maxValue.toInt then some (Atom.int (.ofInt k))
      else none) = some (.int j) := by
  constructor
  · rintro rfl
    rw [if_pos ⟨j.minValue_le_toInt, j.toInt_le⟩, Int64.ofInt_toInt]
  · intro h
    split at h
    · next hk =>
      rw [Int64.toInt_minValue, Int64.toInt_maxValue] at hk
      cases h
      exact Int64.toInt_ofInt_of_le hk.1 (by omega)
    · cases h

theorem means_iff {n : Number} {a : Atom} : n.Means a ↔ n.toNumeral.value = some a := by
  have hnil : (n.toNumeral.fraction = [] ∧ n.toNumeral.exponent = []) ↔
      (n.fraction = none ∧ n.exponent = none) :=
    and_congr (fraction_eq_nil n) (exponent_eq_nil n)
  by_cases hw : n.fraction = none ∧ n.exponent = none
  · have hint : Numeral.signedValue n.toNumeral.sign n.toNumeral.whole =
        n.sign.apply (Nat.ofDigitChars 10 n.whole.chars 0 : Int) :=
      (n.sign.apply_eq _).symm
    rw [Numeral.value, if_pos (hnil.mpr hw), hint]
    cases a with
    | int k => simp only [Means, hw, and_self, true_and, toInt_eq_iff]
    | _ => simp [Means, hw]
  · have hdec : n.toNumeral.decimal =
        ⟨Nat.ofDigitChars 10 (n.whole.chars ++ n.places) 0, n.power - n.places.length⟩ := by
      rw [Numeral.decimal, exponentValue_toNumeral]
      simp only [toNumeral, places_eq_drop, Numeral.digitsValue]
    have hfloat := n.sign.apply_eq n.toNumeral.decimal.toFloat
    rw [Numeral.value, if_neg (mt hnil.mp hw)]
    cases a with
    | float x =>
      simp only [Means, hw, not_false_eq_true, true_and, Option.some.injEq, Atom.float.injEq]
      rw [← hdec, hfloat]
      exact eq_comm
    | _ => simp [Means, hw]

end Number

end Lexicon

end Lisplet
