import Mathlib.Tactic.Common
import Lisplet.Json
import Lisplet.Proofs.Numbers

/-! Texts of JSON trees. A tree keeps strings and numbers as written, so not every tree has a text
that can be read; those that do are read back from it unchanged. Decoding a string undoes encoding
it. -/

namespace Lisplet

namespace Json

/-- What can stand between quotes. -/
inductive IsBody : List Char → Prop where
  | nil : IsBody []
  | plain {c : Char} {rest : List Char} : c ≠ '"' → c ≠ '\\' → 0x20 ≤ c.toNat → IsBody rest →
      IsBody (c :: rest)
  | escape {c : Char} {rest : List Char} : (unescaped? c).isSome → IsBody rest →
      IsBody ('\\' :: c :: rest)
  | unit {a b c d : Char} {rest : List Char} : (unit? a b c d).isSome → IsBody rest →
      IsBody ('\\' :: 'u' :: a :: b :: c :: d :: rest)

theorem ne_of_unescaped {c : Char} (h : (unescaped? c).isSome) : c ≠ 'u' := by
  rintro rfl
  cases h

-- One equation for each way in which a body goes on.

theorem splitBody_escape {c : Char} (hc : (unescaped? c).isSome) (rest : List Char) :
    splitBody ('\\' :: c :: rest) =
      (splitBody rest).map fun (body, rest) => ('\\' :: c :: body, rest) := by
  have hu := ne_of_unescaped hc
  obtain ⟨d, hd⟩ := Option.isSome_iff_exists.mp hc
  rw [splitBody, hd, Option.map_eq_bind]
  · rfl
  · exact fun _ _ _ _ _ h => absurd h hu

theorem splitBody_unit {a b c d : Char} (hu : (unit? a b c d).isSome) (rest : List Char) :
    splitBody ('\\' :: 'u' :: a :: b :: c :: d :: rest) =
      (splitBody rest).map fun (body, rest) => ('\\' :: 'u' :: a :: b :: c :: d :: body, rest) := by
  obtain ⟨n, hn⟩ := Option.isSome_iff_exists.mp hu
  rw [splitBody, hn, Option.map_eq_bind]
  rfl

theorem splitBody_plain {c : Char} (hq : c ≠ '"') (hb : c ≠ '\\') (hc : 0x20 ≤ c.toNat)
    (rest : List Char) :
    splitBody (c :: rest) = (splitBody rest).map fun (body, rest) => (c :: body, rest) := by
  have hn : (c == '\\' || decide (c.toNat < 0x20)) = false := by simp [hb, hc]
  rw [splitBody, hn, Option.map_eq_bind]
  · rfl
  · exact hq
  · exact fun _ _ _ _ _ h => absurd h hb
  · exact fun _ _ h => absurd h hb

theorem IsBody.splitBody {body : List Char} (h : IsBody body) (rest : List Char) :
    splitBody (body ++ '"' :: rest) = some (body, rest) := by
  induction h with
  | nil => rfl
  | plain hq hb hc _ ih => rw [List.cons_append, splitBody_plain hq hb hc, ih, Option.map_some]
  | escape hc _ ih => simp only [List.cons_append, splitBody_escape hc, ih, Option.map_some]
  | unit hu _ ih => simp only [List.cons_append, splitBody_unit hu, ih, Option.map_some]

theorem decodeBody_letter {c d : Char} (h : unescaped? c = some d) (rest : List Char) :
    decodeBody ('\\' :: c :: rest) = (decodeBody rest).map (d :: ·) := by
  have hu : c ≠ 'u' := ne_of_unescaped (by rw [h]; rfl)
  rw [decodeBody, h]
  · rfl
  · exact fun _ _ _ _ _ hc => absurd hc hu

theorem decodeBody_plain {c : Char} (hb : c ≠ '\\') (rest : List Char) :
    decodeBody (c :: rest) = (decodeBody rest).map (c :: ·) := by
  rw [decodeBody]
  · exact fun _ _ _ _ _ h => absurd h hb
  · exact fun _ _ h => absurd h hb

/-- Controls are written with their code unit. -/
theorem unit?_control {n : Nat} (h : n < 0x20) :
    unit? '0' '0' (Nat.digitChar (n / 16)) (Nat.digitChar (n % 16)) = some n := by
  revert n
  decide

theorem decodeBody_control {c : Char} (h : c.toNat < 0x20) (rest : List Char) :
    decodeBody ('\\' :: 'u' :: '0' :: '0' :: Nat.digitChar (c.toNat / 16) ::
      Nat.digitChar (c.toNat % 16) :: rest) = (decodeBody rest).map (c :: ·) := by
  have hlow : isLow c.toNat = false := by
    rw [isLow, Bool.and_eq_false_iff, decide_eq_false_iff_not]
    omega
  have hhigh : isHigh c.toNat = false := by
    rw [isHigh, Bool.and_eq_false_iff, decide_eq_false_iff_not]
    omega
  rw [decodeBody.eq_def]
  simp only [unit?_control h, Option.bind_eq_bind, Option.bind_some, hlow, hhigh, Bool.false_eq_true,
    ↓reduceIte, Char.ofNat_toNat]

theorem decodeBody_escape (c : Char) (rest : List Char) :
    decodeBody (escape c ++ rest) = (decodeBody rest).map (c :: ·) := by
  unfold escape
  split
  case h_8 =>
    split
    · next h => exact decodeBody_control h rest
    · exact decodeBody_plain ‹_› rest
  all_goals exact decodeBody_letter rfl rest

theorem isBody_escape (c : Char) {rest : List Char} (h : IsBody rest) : IsBody (escape c ++ rest) := by
  unfold escape
  split
  case h_8 hq hb _ _ _ _ _ =>
    split
    · next hc => exact .unit (by rw [unit?_control hc]; rfl) h
    · next hc => exact .plain hq hb (Nat.not_lt.mp hc) h
  all_goals exact .escape rfl h

theorem isBody_encode (s : String) : IsBody (encode s) := by
  unfold encode
  induction s.toList with
  | nil => exact .nil
  | cons c rest ih => exact isBody_escape c ih

theorem decode_encode (s : String) : decode (encode s) = some s := by
  have hd (t : List Char) : decodeBody (t.flatMap escape) = some t := by
    induction t with
    | nil => rfl
    | cons c rest ih => rw [List.flatMap_cons, decodeBody_escape, ih, Option.map_some]
  rw [decode, encode, hd, Option.map_some, String.ofList_toList]

open Lexicon

/-- No plus in front, and no zero in front of other digits. -/
def IsLiteral (literal : List Char) : Prop :=
  ∃ n : Number, n.text = literal ∧ n.sign ≠ .plus ∧
    (n.whole.chars = ['0'] ∨ n.whole.chars.head? ≠ some '0')

/-- What a number cannot go on with. -/
def Stops (rest : List Char) : Prop := ∀ c ∈ rest.head?, isStop c

theorem takeWhile_digits (ds : Digits) {rest : List Char} (h : ∀ c ∈ rest.head?, c.isDigit = false) :
    (ds.chars ++ rest).takeWhile Char.isDigit = ds.chars := by
  have hr : rest.takeWhile Char.isDigit = [] := by
    cases rest with
    | nil => rfl
    | cons c rest => exact List.takeWhile_cons_of_neg (by simp [h c rfl])
  rw [ds.takeWhile_append, hr, List.append_nil]

theorem fractionOf_text (o : Option Digits) {rest : List Char}
    (h : ∀ c ∈ rest.head?, c.isDigit = false ∧ c ≠ '.') :
    Numeral.fractionOf (Number.fractionText o ++ rest) = Number.fractionText o := by
  cases o with
  | none =>
    cases rest with
    | nil => rfl
    | cons c rest =>
      have hc := (h c rfl).2
      simp [Number.fractionText, Numeral.fractionOf, hc]
  | some ds =>
    have ht := takeWhile_digits ds fun c hc => (h c hc).1
    rw [Number.fractionText, List.cons_append, Number.fractionOf_point (by rw [ht]; exact ds.ne_nil),
      ht]

theorem exponentOf_text (o : Option Exponent) {rest : List Char} (h : Stops rest) :
    Numeral.exponentOf (Number.exponentText o ++ rest) = Number.exponentText o := by
  have hn : Numeral.exponentOf (Number.exponentText o) = Number.exponentText o := by
    cases o with
    | none => rfl
    | some e =>
      obtain ⟨d, ds, hc, hd⟩ := e.digits.exists_cons
      have ht : e.digits.chars.takeWhile Char.isDigit = e.digits.chars :=
        List.takeWhile_eq_self_iff.mpr e.digits.isDigit
      rw [hc] at ht
      rw [Number.exponentText, hc, Number.exponentOf_letter e.isLetter e.sign hd, ht]
  cases rest with
  | nil => rw [List.append_nil, hn]
  | cons c rest => rw [Numeral.takesFront_exponent.stop (h c rfl), hn]

theorem isDigit_of_letter {e : Char} (h : e = 'e' ∨ e = 'E') : e.isDigit = false ∧ e ≠ '.' := by
  rcases h with rfl | rfl <;> decide

/-- Behind the digits stands a point, a letter, or the end of the number. -/
theorem head_exponent (o : Option Exponent) {rest : List Char} (h : Stops rest) :
    ∀ c ∈ (Number.exponentText o ++ rest).head?, c.isDigit = false ∧ c ≠ '.' := by
  intro c hc
  cases o with
  | none =>
    have hs := h c hc
    exact ⟨isDigit_of_isStop hs, ne_of_isStop (by decide) hs⟩
  | some e =>
    cases hc
    exact isDigit_of_letter e.isLetter

theorem head_fraction (o : Option Digits) {rest : List Char}
    (h : ∀ c ∈ rest.head?, c.isDigit = false ∧ c ≠ '.') :
    ∀ c ∈ (Number.fractionText o ++ rest).head?, c.isDigit = false := by
  intro c hc
  cases o with
  | none => exact (h c hc).1
  | some ds =>
    cases hc
    decide

/-- The digits in front of the point; a zero stands there alone. -/
def leading : List Char → List Char
  | '0' :: _ => ['0']
  | text => text.takeWhile Char.isDigit

theorem leading_append {ds : Digits} (h : ds.chars = ['0'] ∨ ds.chars.head? ≠ some '0')
    {rest : List Char} (hr : ∀ c ∈ rest.head?, c.isDigit = false) :
    leading (ds.chars ++ rest) = ds.chars := by
  rcases h with h | h
  · rw [h]
    rfl
  · obtain ⟨d, more, hc, -⟩ := ds.exists_cons
    have hd : d ≠ '0' := by
      rintro rfl
      exact h (by rw [hc]; rfl)
    have ht := takeWhile_digits ds hr
    rw [hc, List.cons_append] at ht ⊢
    rw [leading, ht]
    exact fun _ he => absurd (List.cons.inj he).1 hd

theorem head_minus {n : Number} (h : n.sign ≠ .plus) (rest : List Char) :
    (if (n.text ++ rest).head? = some '-' then ['-'] else []) = n.sign.text := by
  obtain ⟨d, more, hd, ht⟩ := n.exists_digit
  have hm : d ≠ '-' := by
    rintro rfl
    cases hd
  rw [ht]
  cases hs : n.sign with
  | none => simp [Sign.text, hm]
  | plus => exact absurd hs h
  | minus => rfl

theorem IsLiteral.splitNumber {literal rest : List Char} (h : IsLiteral literal) (hr : Stops rest) :
    splitNumber (literal ++ rest) = some (literal, rest) := by
  obtain ⟨n, rfl, hs, hw⟩ := h
  have he := head_exponent n.exponent hr
  have hf := head_fraction n.fraction he
  have hsign := head_minus hs rest
  have ht : n.text ++ rest = n.sign.text ++ (n.whole.chars ++ (Number.fractionText n.fraction ++
      (Number.exponentText n.exponent ++ rest))) := by simp only [Number.text, List.append_assoc]
  have hsplit (text : List Char) : Json.splitNumber text =
      let sign := if text.head? = some '-' then ['-'] else []
      let text := text.drop sign.length
      let whole := leading text
      let rest := text.drop whole.length
      let fraction := Numeral.fractionOf rest
      let exponent := Numeral.exponentOf (rest.drop fraction.length)
      let rest := (rest.drop fraction.length).drop exponent.length
      if whole = [] then none else some (sign ++ whole ++ fraction ++ exponent, rest) := rfl
  rw [hsplit, hsign]
  simp only [ht, List.drop_left, leading_append hw hf, fractionOf_text _ he, exponentOf_text _ hr,
    n.whole.ne_nil, ↓reduceIte]
  rfl

/-- The digits of a natural number. -/
def digitsOf (n : Nat) : Digits where
  chars := Nat.toDigits 10 n
  ne_nil := Nat.toDigits_ne_nil
  isDigit _ hc := Nat.isDigit_of_mem_toDigits (by decide) (by decide) hc

theorem head_toDigits {n : Nat} (h : 0 < n) : (Nat.toDigits 10 n).head? ≠ some '0' := by
  induction n using Nat.strongRecOn with
  | ind n ih =>
    rcases Nat.lt_or_ge n 10 with hlt | hge
    · rw [Nat.toDigits_of_lt_base hlt, List.head?_cons, ne_eq, Option.some.injEq,
        Nat.digitChar_eq_zero]
      omega
    · have hd := ih (n / 10) (by omega) (by omega)
      obtain ⟨d, more, hc⟩ := List.exists_cons_of_ne_nil (digitsOf (n / 10)).ne_nil
      have hq : Nat.toDigits 10 (n / 10) = d :: more := hc
      rw [Nat.toDigits_of_base_le (by decide) hge, hq, List.cons_append]
      rw [hq] at hd
      exact hd

theorem isLiteral_natural (n : Nat) (fraction : Option Digits) (exponent : Option Exponent) :
    IsLiteral (Number.text ⟨.none, digitsOf n, fraction, exponent⟩) := by
  refine ⟨_, rfl, nofun, ?_⟩
  rcases Nat.eq_zero_or_pos n with rfl | hn
  · exact Or.inl (Nat.toDigits_zero 10)
  · exact Or.inr (head_toDigits hn)

theorem isLiteral_toDigits (n : Nat) : IsLiteral (Nat.toDigits 10 n) := by
  have h := isLiteral_natural n none none
  rwa [Number.text, Number.fractionText, Number.exponentText, List.append_nil, List.append_nil] at h

theorem whole?_ofNat {bound n : Nat} (h : n < bound) : (ofNat n).whole? bound = some n := by
  have hd : (Nat.toDigits 10 n).all Char.isDigit := List.all_eq_true.mpr (digitsOf n).isDigit
  rw [ofNat, whole?, Numeral.digitsValue, Nat.ofDigitChars_ten_toDigits, hd, Bool.true_and,
    if_pos (decide_eq_true h)]

/-- A tree that some text is read as: what it keeps as written is written as it must be. -/
inductive WellFormed : Json → Prop where
  | null : WellFormed .null
  | bool (b : Bool) : WellFormed (.bool b)
  | number {literal : List Char} : IsLiteral literal → WellFormed (.number literal)
  | string {body : List Char} : IsBody body → WellFormed (.string body)
  | array {items : List Json} : (∀ item ∈ items, WellFormed item) → WellFormed (.array items)
  | object {fields : List (List Char × Json)} : (∀ field ∈ fields, IsBody field.1) →
      (∀ field ∈ fields, WellFormed field.2) → WellFormed (.object fields)

theorem skipBlank_cons {c : Char} (h : isBlank c = false) (rest : List Char) :
    skipBlank (c :: rest) = c :: rest :=
  List.dropWhile_cons_of_neg (by simp [h])

theorem IsLiteral.head {literal : List Char} (h : IsLiteral literal) :
    ∃ c rest, literal = c :: rest ∧ (c = '-' ∨ c.isDigit) := by
  obtain ⟨n, rfl, hs, -⟩ := h
  obtain ⟨d, rest, hd, ht⟩ := n.exists_digit
  cases hn : n.sign with
  | none => exact ⟨d, rest, by rw [ht, hn]; rfl, Or.inr hd⟩
  | plus => exact absurd hn hs
  | minus => exact ⟨'-', d :: rest, by rw [ht, hn]; rfl, Or.inl rfl⟩

theorem number_not_blank {c : Char} (h : c = '-' ∨ c.isDigit) : isBlank c = false ∧ c ≠ ']' := by
  rcases h with rfl | h
  · decide
  · have hne (d : Char) (hd : d.isDigit = false) : c ≠ d := by
      rintro rfl
      rw [h] at hd
      cases hd
    refine ⟨?_, hne ']' rfl⟩
    simp [isBlank, hne ' ' rfl, hne '\n' rfl, hne '\t' rfl, hne '\r' rfl]

/-- A value starts with no blank, and not as if the array around it ended. -/
theorem WellFormed.head {j : Json} (h : j.WellFormed) :
    ∃ c rest, j.text = c :: rest ∧ isBlank c = false ∧ c ≠ ']' := by
  cases h with
  | null => exact ⟨_, _, rfl, by decide, by decide⟩
  | bool b => cases b <;> exact ⟨_, _, rfl, by decide, by decide⟩
  | number h =>
    obtain ⟨c, rest, rfl, hc⟩ := h.head
    exact ⟨c, rest, rfl, number_not_blank hc⟩
  | string => exact ⟨_, _, rfl, by decide, by decide⟩
  | array => exact ⟨_, _, rfl, by decide, by decide⟩
  | object => exact ⟨_, _, rfl, by decide, by decide⟩

theorem splitValue_number {c : Char} (h : c = '-' ∨ c.isDigit) (fuel : Nat) (rest : List Char) :
    splitValue (fuel + 1) (c :: rest) =
      (splitNumber (c :: rest)).map fun (literal, rest) => (.number literal, rest) := by
  rw [splitValue, skipBlank_cons (number_not_blank h).1]
  split
  case h_7 => rfl
  all_goals
    next he =>
      cases he
      rcases h with h | h <;> cases h

/-- Reading gives back the tree and stops behind its text, if it may take two steps for each
character. -/
def Splits (j : Json) : Prop :=
  ∀ fuel rest, 2 * j.text.length ≤ fuel → Stops rest → splitValue fuel (j.text ++ rest) = some (j, rest)

theorem stops_cons {c : Char} (h : isStop c) (rest : List Char) : Stops (c :: rest) := by
  rintro _ ⟨⟩
  exact h

theorem splitItems_last {item : Json} (h : item.Splits) {fuel : Nat} (rest : List Char)
    (hf : 2 * item.text.length < fuel) :
    splitItems fuel (item.text ++ ']' :: rest) = some ([item], rest) := by
  obtain _ | fuel := fuel
  · omega
  · have hv := h fuel (']' :: rest) (by omega) (stops_cons (by decide) rest)
    rw [splitItems, hv]
    rfl

theorem splitItems_more {item : Json} (h : item.Splits) {fuel : Nat} (rest : List Char)
    (hf : 2 * item.text.length ≤ fuel) :
    splitItems (fuel + 1) (item.text ++ ',' :: rest) =
      (splitItems fuel rest).map fun (items, rest) => (item :: items, rest) := by
  have hv := h fuel (',' :: rest) hf (stops_cons (by decide) rest)
  rw [splitItems, hv]
  rfl

theorem splitItems_text {item : Json} {items : List Json} (h : ∀ i ∈ item :: items, i.Splits)
    {fuel : Nat} (rest : List Char) (hf : 2 * (itemsText (item :: items)).length < fuel) :
    splitItems fuel (itemsText (item :: items) ++ ']' :: rest) = some (item :: items, rest) := by
  induction items generalizing item fuel with
  | nil => exact splitItems_last (h item List.mem_cons_self) rest hf
  | cons next items ih =>
    have ht : itemsText (item :: next :: items) = item.text ++ ',' :: itemsText (next :: items) := rfl
    rw [ht, List.length_append, List.length_cons] at hf
    obtain _ | fuel := fuel
    · omega
    · have hm := ih (fun i hi => h i (List.mem_cons_of_mem _ hi))
        (show 2 * (itemsText (next :: items)).length < fuel by omega)
      rw [ht, List.append_assoc, List.cons_append,
        splitItems_more (h item List.mem_cons_self) _ (by omega), hm]
      rfl

section

variable {key : List Char} {value : Json} {fuel : Nat} (hk : IsBody key) (hv : value.Splits)
  (hf : 2 * value.text.length ≤ fuel) (rest : List Char)

include hk hv hf

theorem splitFields_last :
    splitFields (fuel + 1) ('"' :: (key ++ '"' :: ':' :: (value.text ++ '\x7d' :: rest))) =
      some ([(key, value)], rest) := by
  have hs := hv fuel ('\x7d' :: rest) hf (stops_cons (by decide) rest)
  have hcolon (text : List Char) : skipBlank (':' :: text) = ':' :: text := rfl
  rw [splitFields, skipBlank_cons (by decide)]
  simp only [hk.splitBody, Option.bind_eq_bind, Option.bind_some, hcolon, hs]
  rfl

theorem splitFields_more :
    splitFields (fuel + 1) ('"' :: (key ++ '"' :: ':' :: (value.text ++ ',' :: rest))) =
      (splitFields fuel rest).map fun (fields, rest) => ((key, value) :: fields, rest) := by
  have hs := hv fuel (',' :: rest) hf (stops_cons (by decide) rest)
  have hcolon (text : List Char) : skipBlank (':' :: text) = ':' :: text := rfl
  rw [splitFields, skipBlank_cons (by decide)]
  simp only [hk.splitBody, Option.bind_eq_bind, Option.bind_some, hcolon, hs]
  rfl

end

theorem splitFields_text {field : List Char × Json} {fields : List (List Char × Json)}
    (hk : ∀ f ∈ field :: fields, IsBody f.1) (hv : ∀ f ∈ field :: fields, f.2.Splits) {fuel : Nat}
    (rest : List Char) (hf : 2 * (fieldsText (field :: fields)).length < fuel) :
    splitFields fuel (fieldsText (field :: fields) ++ '\x7d' :: rest) = some (field :: fields, rest) := by
  have key := hk field List.mem_cons_self
  have value := hv field List.mem_cons_self
  induction fields generalizing field fuel with
  | nil =>
    have ht : fieldsText [field] = '"' :: field.1 ++ '"' :: ':' :: field.2.text := rfl
    rw [ht] at hf ⊢
    simp only [List.length_append, List.length_cons] at hf
    simp only [List.append_assoc, List.cons_append]
    obtain _ | fuel := fuel
    · omega
    · exact splitFields_last key value (by omega) rest
  | cons next fields ih =>
    have ht : fieldsText (field :: next :: fields) =
        '"' :: field.1 ++ '"' :: ':' :: field.2.text ++ ',' :: fieldsText (next :: fields) := rfl
    rw [ht] at hf ⊢
    simp only [List.length_append, List.length_cons] at hf
    simp only [List.append_assoc, List.cons_append]
    obtain _ | fuel := fuel
    · omega
    · have hk' (f) (hm : f ∈ next :: fields) := hk f (List.mem_cons_of_mem _ hm)
      have hv' (f) (hm : f ∈ next :: fields) := hv f (List.mem_cons_of_mem _ hm)
      have hm := ih hk' hv' (show 2 * (fieldsText (next :: fields)).length < fuel by omega)
        (hk' next List.mem_cons_self) (hv' next List.mem_cons_self)
      rw [splitFields_more key value (by omega), hm]
      rfl

theorem itemsText_head {item : Json} (h : item.WellFormed) (items : List Json) :
    ∃ c rest, itemsText (item :: items) = c :: rest ∧ isBlank c = false ∧ c ≠ ']' := by
  obtain ⟨c, rest, ht, hc⟩ := h.head
  cases items with
  | nil => exact ⟨c, rest, ht, hc⟩
  | cons next items =>
    have hi : itemsText (item :: next :: items) = item.text ++ ',' :: itemsText (next :: items) := rfl
    exact ⟨c, _, by rw [hi, ht, List.cons_append], hc⟩

theorem fieldsText_head (field : List Char × Json) (fields : List (List Char × Json)) :
    ∃ rest, fieldsText (field :: fields) = '"' :: rest := by
  cases fields <;> exact ⟨_, rfl⟩

theorem splitValue_array {c : Char} (hb : isBlank c = false) (hc : c ≠ ']') (fuel : Nat)
    (text : List Char) :
    splitValue (fuel + 1) ('[' :: c :: text) =
      (splitItems fuel (c :: text)).map fun (items, rest) => (.array items, rest) := by
  rw [splitValue, skipBlank_cons (by decide)]
  simp only [skipBlank_cons hb]
  split
  · next he => exact absurd (List.cons.inj he).1 hc
  · rfl

theorem splitValue_object (fuel : Nat) (text : List Char) :
    splitValue (fuel + 1) ('\x7b' :: '"' :: text) =
      (splitFields fuel ('"' :: text)).map fun (fields, rest) => (.object fields, rest) := rfl

theorem splits_of_text {j : Json} (hne : j.text ≠ [])
    (h : ∀ fuel rest, 2 * j.text.length ≤ fuel + 1 → Stops rest →
      splitValue (fuel + 1) (j.text ++ rest) = some (j, rest)) : j.Splits := by
  intro fuel rest hf hr
  have hpos := List.length_pos_iff.mpr hne
  obtain _ | fuel := fuel
  · omega
  · exact h fuel rest hf hr

theorem WellFormed.splits {j : Json} (h : j.WellFormed) : j.Splits := by
  induction h with
  | null => exact splits_of_text (List.cons_ne_nil _ _) fun fuel rest _ _ => rfl
  | bool b => cases b <;> exact splits_of_text (List.cons_ne_nil _ _) fun fuel rest _ _ => rfl
  | number h =>
    obtain ⟨c, more, rfl, hc⟩ := h.head
    refine splits_of_text (List.cons_ne_nil _ _) fun fuel rest _ hr => ?_
    refine (splitValue_number hc fuel (more ++ rest)).trans ?_
    rw [← List.cons_append, h.splitNumber hr]
    rfl
  | @string body h =>
    refine splits_of_text (List.cons_ne_nil _ _) fun fuel rest _ hr => ?_
    have ht : (Json.string body).text ++ rest = '"' :: (body ++ '"' :: rest) := by simp [text]
    rw [ht, splitValue, skipBlank_cons (by decide)]
    simp only [h.splitBody]
    rfl
  | @array items h ih =>
    refine splits_of_text (List.cons_ne_nil _ _) fun fuel rest hf hr => ?_
    cases items with
    | nil => rfl
    | cons item items =>
      have ht : (Json.array (item :: items)).text ++ rest =
          '[' :: (itemsText (item :: items) ++ ']' :: rest) := by simp [text]
      obtain ⟨c, more, hi, hb, hc⟩ := itemsText_head (h item List.mem_cons_self) items
      have hl : (Json.array (item :: items)).text.length = (itemsText (item :: items)).length + 2 := by
        simp [text]
      have hs := splitItems_text ih rest (show 2 * (itemsText (item :: items)).length < fuel by omega)
      rw [hi, List.cons_append] at hs
      rw [ht, hi, List.cons_append, splitValue_array hb hc, hs]
      rfl
  | @object fields hk h ih =>
    refine splits_of_text (List.cons_ne_nil _ _) fun fuel rest hf hr => ?_
    cases fields with
    | nil => rfl
    | cons field fields =>
      have ht : (Json.object (field :: fields)).text ++ rest =
          '\x7b' :: (fieldsText (field :: fields) ++ '\x7d' :: rest) := by simp [text]
      obtain ⟨more, hi⟩ := fieldsText_head field fields
      have hl : (Json.object (field :: fields)).text.length =
          (fieldsText (field :: fields)).length + 2 := by simp [text]
      have hs := splitFields_text hk ih rest
        (show 2 * (fieldsText (field :: fields)).length < fuel by omega)
      rw [hi, List.cons_append] at hs
      rw [ht, hi, List.cons_append, splitValue_object, hs]
      rfl

/-- The text of a tree as a string. -/
def written (j : Json) : String := String.ofList j.text

theorem WellFormed.parse_written {j : Json} (h : j.WellFormed) : parse j.written = some j := by
  have hs := h.splits (2 * j.text.length + 2) [] (by omega) nofun
  rw [List.append_nil] at hs
  rw [parse, written, String.toList_ofList]
  simp only [hs, Option.bind_eq_bind, Option.bind_some]
  rfl

end Json

end Lisplet
