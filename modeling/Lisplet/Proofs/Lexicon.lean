import Mathlib.Data.List.TakeWhile
import Mathlib.Tactic.Common
import Lisplet.Proofs.Encoding
import Lisplet.Proofs.Numbers

/-! The lexical grammar, byte by byte. A text is scanned without problems exactly if its bytes can be
cut into pieces of the grammar; there is one such cutting, and its pieces are the tokens. -/

namespace Lisplet

open Text

namespace Lexicon

/-- Space, tab, line feed, form feed and carriage return. -/
def isBlank (b : UInt8) : Bool := [' ', '\t', '\n', '\x0c', '\r'].any (·.toUInt8 == b)

def isBetween (low high : Char) (b : UInt8) : Bool := low.toUInt8 ≤ b && b ≤ high.toUInt8

/-- Letters and digits, some punctuation, and every byte beyond ASCII. -/
def isSymbolByte (b : UInt8) : Bool :=
  isBetween 'a' 'z' b || isBetween 'A' 'Z' b || isBetween '0' '9' b ||
    ['+', '-', '*', '/', '<', '>', '=', '!', '%', '^', '_', '?', '&', '.'].any (·.toUInt8 == b) ||
    0x80 ≤ b

/-- The characters that are tokens of their own. -/
def singles : List (Char × Token.Kind) :=
  [('(', .lparen), (')', .rparen), ('\'', .mark .quote), ('\x60', .mark .quasi)]

/-- What follows the number sign of a boolean. -/
def booleans : List (Char × Bool) := [('t', true), ('f', false)]

/-- What a backslash makes of the character after it. -/
def escapes : List (Char × Char) := [('"', '"'), ('\\', '\\'), ('n', '\n'), ('t', '\t')]

/-- What stands between the quotes of a string, and what that stands for. A backslash takes the next
byte with it. -/
inductive Body : List UInt8 → List UInt8 → Prop where
  | nil : Body [] []
  | plain {b w v} : b ≠ '"'.toUInt8 → b ≠ '\\'.toUInt8 → Body w v → Body (b :: w) (b :: v)
  | escape {e c w v} : (e, c) ∈ escapes → Body w v →
      Body ('\\'.toUInt8 :: e.toUInt8 :: w) (c.toUInt8 :: v)
  | other {b w v} : (∀ x ∈ escapes, b ≠ x.1.toUInt8) → Body w v →
      Body ('\\'.toUInt8 :: b :: w) ('\\'.toUInt8 :: b :: v)

/-- The text is a piece if the rest follows it. Trivia have no kind. -/
inductive Piece : List UInt8 → List UInt8 → Option Token.Kind → Prop where
  | blank {b rest} : isBlank b → Piece [b] rest none
  | comment {w rest} : (∀ b ∈ w, b ≠ '\n'.toUInt8) → (∀ b ∈ rest.head?, b = '\n'.toUInt8) →
      Piece (';'.toUInt8 :: w) rest none
  | single {d kind rest} : (d, kind) ∈ singles → Piece [d.toUInt8] rest (some kind)
  | string {w rest} {s : String} : Body w (utf8 s.toList) →
      Piece ('"'.toUInt8 :: w ++ ['"'.toUInt8]) rest (some (.atom (.str s)))
  | bool {d b rest} : (d, b) ∈ booleans → (∀ b ∈ rest.head?, ¬isSymbolByte b) →
      Piece ['#'.toUInt8, d.toUInt8] rest (some (.atom (.bool b)))
  | number {n : Number} {rest a} : n.Means a →
      (∀ m : Number, utf8 m.text <+: utf8 n.text ++ rest → m.text.length ≤ n.text.length) →
      Piece (utf8 n.text) rest (some (.atom a))
  | symbol {name : String} {rest} : name ≠ "" → ¬StartsNumber name.toList →
      (∀ b ∈ utf8 name.toList, isSymbolByte b) → (∀ b ∈ rest.head?, ¬isSymbolByte b) →
      Piece (utf8 name.toList) rest (some (.atom (.sym name)))

/-- The bytes fall into these pieces, from left to right. -/
inductive Cutting : List UInt8 → List (List UInt8 × Option Token.Kind) → Prop where
  | nil : Cutting [] []
  | cons {text rest kind pieces} : Piece text rest kind → Cutting rest pieces →
      Cutting (text ++ rest) ((text, kind) :: pieces)

theorem decides_symbol : Decides isSymbolByte isSymbolChar := by
  refine decides_of_ascii true (by decide) ?_ ?_
  · intro b hb
    have : (0x80 : UInt8) ≤ b := UInt8.le_iff_toNat_le.mpr hb
    simp [isSymbolByte, this]
  · intro c hc
    simp [isSymbolChar, hc]

theorem decides_inline : Decides (· != '\n'.toUInt8) (· != '\n') := decides_ne (by decide)

theorem escapes_ascii : ∀ x ∈ escapes, x.1.toNat < 0x80 ∧ x.2.toNat < 0x80 := by
  simp [escapes]

theorem singles_ascii : ∀ x ∈ singles, x.1.toNat < 0x80 := by simp [singles]

theorem booleans_ascii : ∀ x ∈ booleans, x.1.toNat < 0x80 ∧ isSymbolByte x.1.toUInt8 := by
  simp only [booleans, List.forall_mem_cons, List.not_mem_nil, false_implies, implies_true, and_true]
  decide

theorem unescape_pair {e c : Char} (h : (e, c) ∈ escapes) (rest : List Char) :
    Lexeme.unescape ('\\' :: e :: rest) = c :: Lexeme.unescape rest := by
  simp only [escapes, List.mem_cons, Prod.mk.injEq, List.not_mem_nil, or_false] at h
  rcases h with ⟨rfl, rfl⟩ | ⟨rfl, rfl⟩ | ⟨rfl, rfl⟩ | ⟨rfl, rfl⟩ <;> rfl

theorem unescape_other {c : Char} (h : ∀ x ∈ escapes, c ≠ x.1) (rest : List Char) :
    Lexeme.unescape ('\\' :: c :: rest) = '\\' :: c :: Lexeme.unescape rest := by
  simp only [escapes, List.forall_mem_cons, List.not_mem_nil, false_implies, implies_true,
    and_true] at h
  obtain ⟨hq, hb, hn, ht⟩ := h
  rw [Lexeme.unescape, Lexeme.unescape_cons hb] <;> simp [hq, hb, hn, ht]

/-- No byte of a character is that of another one. -/
theorem ne_of_mem_encode {c d : Char} (hd : d.toNat < 0x80) (h : c ≠ d) :
    ∀ b ∈ String.utf8EncodeChar c, b ≠ d.toUInt8 := fun b hb =>
  bne_iff_ne.mp ((decides_ne hd c b hb).trans (bne_iff_ne.mpr h))

theorem plain_of_mem_encode {c : Char} (hq : c ≠ '"') (hs : c ≠ '\\') :
    ∀ b ∈ String.utf8EncodeChar c, b ≠ '"'.toUInt8 ∧ b ≠ '\\'.toUInt8 := fun b hb =>
  ⟨ne_of_mem_encode (by decide) hq b hb, ne_of_mem_encode (by decide) hs b hb⟩

namespace Body

variable {w v bs r u : List UInt8}

theorem append (hb : ∀ b ∈ bs, b ≠ '"'.toUInt8 ∧ b ≠ '\\'.toUInt8) (h : Body w v) :
    Body (bs ++ w) (bs ++ v) := by
  induction bs with
  | nil => exact h
  | cons b bs ih =>
    obtain ⟨hb, hr⟩ := List.forall_mem_cons.mp hb
    exact .plain hb.1 hb.2 (ih hr)

/-- Plain bytes in front of a text that ends with a quote belong to what is quoted. -/
theorem strip (hb : ∀ b ∈ bs, b ≠ '"'.toUInt8 ∧ b ≠ '\\'.toUInt8) (h : Body w v)
    (ht : w ++ '"'.toUInt8 :: r = bs ++ u) :
    ∃ w' v', w = bs ++ w' ∧ v = bs ++ v' ∧ Body w' v' ∧ w' ++ '"'.toUInt8 :: r = u := by
  induction bs generalizing w v with
  | nil => exact ⟨w, v, rfl, rfl, h, ht⟩
  | cons b bs ih =>
    obtain ⟨⟨hq, hs⟩, hr⟩ := List.forall_mem_cons.mp hb
    cases h with
    | nil => exact (hq (List.cons.inj ht).1.symm).elim
    | escape _ _ => exact (hs (List.cons.inj ht).1.symm).elim
    | other _ _ => exact (hs (List.cons.inj ht).1.symm).elim
    | plain _ _ h =>
      obtain ⟨rfl, htail⟩ := List.cons.inj ht
      obtain ⟨w', v', rfl, rfl, h, hu⟩ := ih hr h htail
      exact ⟨w', v', rfl, rfl, h, hu⟩

end Body

/-- A character that a backslash does not change: its first byte follows the backslash, and the other
bytes are plain. -/
theorem exists_encode_other {c : Char} (h : ∀ x ∈ escapes, c ≠ x.1) :
    ∃ b bs, String.utf8EncodeChar c = b :: bs ∧ (∀ x ∈ escapes, b ≠ x.1.toUInt8) ∧
      ∀ b ∈ bs, b ≠ '"'.toUInt8 ∧ b ≠ '\\'.toUInt8 := by
  obtain ⟨b, bs, hc⟩ := List.exists_cons_of_ne_nil (String.utf8EncodeChar_ne_nil (c := c))
  refine ⟨b, bs, hc, ?_, ?_⟩
  · intro x hx
    exact ne_of_mem_encode (escapes_ascii x hx).1 (h x hx) b (by simp [hc])
  · intro b' hb'
    exact plain_of_mem_encode (h ('"', '"') (by simp [escapes])) (h ('\\', '\\') (by simp [escapes]))
      b' (by simp [hc, hb'])

theorem body_stringBody {t : List Char} (h : (Lexeme.stringBody t).2 = true) :
    Body (utf8 (Lexeme.stringBody t).1) (utf8 (Lexeme.unescape (Lexeme.stringBody t).1)) := by
  fun_induction Lexeme.stringBody t with
  | case1 => cases h
  | case2 => exact .nil
  | case3 c rest body closed hb ih =>
    rw [hb] at ih
    by_cases hc : ∃ x ∈ escapes, c = x.1
    · obtain ⟨⟨e, x⟩, hx, rfl⟩ := hc
      obtain ⟨he, hx'⟩ := escapes_ascii _ hx
      rw [unescape_pair hx, utf8_ascii_cons (by decide), utf8_ascii_cons he, utf8_ascii_cons hx']
      exact .escape hx (ih h)
    · have hc : ∀ x ∈ escapes, c ≠ x.1 := fun x hx he => hc ⟨x, hx, he⟩
      obtain ⟨b, bs, he, hb, hbs⟩ := exists_encode_other hc
      have hback := utf8_ascii_cons (d := '\\') (by decide)
      rw [unescape_other hc, hback, hback, utf8_cons, utf8_cons, he]
      exact .other hb ((ih h).append hbs)
  | case4 c rest hq hs body closed hr ih =>
    rw [hr] at ih
    cases rest with
    | nil =>
      cases hr
      cases h
    | cons d rest =>
      have hs : c ≠ '\\' := fun hc => hs d rest hc rfl
      rw [Lexeme.unescape_cons hs, utf8_cons, utf8_cons]
      exact (ih h).append (plain_of_mem_encode hq hs)

theorem stringBody_of_body {t : List Char} {w v r : List UInt8} (h : Body w v)
    (ht : w ++ '"'.toUInt8 :: r = utf8 t) :
    (Lexeme.stringBody t).2 = true ∧ w = utf8 (Lexeme.stringBody t).1 ∧
      v = utf8 (Lexeme.unescape (Lexeme.stringBody t).1) := by
  fun_induction Lexeme.stringBody t generalizing w v with
  | case1 => simp [utf8] at ht
  | case2 rest =>
    rw [utf8_ascii_cons (by decide)] at ht
    cases h with
    | nil => exact ⟨rfl, rfl, rfl⟩
    | plain hq _ _ => exact (hq (List.cons.inj ht).1).elim
    | escape _ _ => exact absurd (List.cons.inj ht).1 (by decide)
    | other _ _ => exact absurd (List.cons.inj ht).1 (by decide)
  | case3 c rest body closed hb ih =>
    rw [hb] at ih
    have hback := utf8_ascii_cons (d := '\\') (by decide)
    rw [hback] at ht
    cases h with
    | nil => exact absurd (List.cons.inj ht).1 (by decide)
    | plain _ hs _ => exact (hs (List.cons.inj ht).1).elim
    | @escape e x w v hx h =>
      obtain ⟨he, hx'⟩ := escapes_ascii _ hx
      obtain ⟨more, hc, hw⟩ := (utf8_eq_cons he).mp (List.cons.inj ht).2.symm
      cases hc
      obtain ⟨hclosed, rfl, rfl⟩ := ih h hw
      refine ⟨hclosed, ?_, ?_⟩
      · rw [hback, utf8_ascii_cons he]
      · rw [unescape_pair hx, utf8_ascii_cons hx']
    | @other b w v hb h =>
      have ht : b :: (w ++ '"'.toUInt8 :: r) = utf8 (c :: rest) := (List.cons.inj ht).2
      have hc : ∀ x ∈ escapes, c ≠ x.1 := by
        rintro x hx rfl
        rw [utf8_ascii_cons (escapes_ascii x hx).1] at ht
        exact hb x hx (List.cons.inj ht).1
      obtain ⟨b', bs, he, -, hbs⟩ := exists_encode_other hc
      rw [utf8_cons, he] at ht
      obtain ⟨rfl, htail⟩ := List.cons.inj ht
      obtain ⟨w', v', rfl, rfl, h, hu⟩ := h.strip hbs htail
      obtain ⟨hclosed, rfl, rfl⟩ := ih h hu
      refine ⟨hclosed, ?_, ?_⟩
      · rw [hback, utf8_cons, he, List.cons_append]
      · rw [unescape_other hc, hback, utf8_cons, he, List.cons_append]
  | case4 c rest hq hs body closed hr ih =>
    rw [hr] at ih
    by_cases hc : c = '\\'
    · -- A backslash at the end takes nothing with it, and no quote follows.
      cases rest with
      | cons d rest => exact (hs d rest hc rfl).elim
      | nil =>
        subst c
        rw [utf8_ascii_cons (by decide)] at ht
        cases w with
        | nil => exact absurd (List.cons.inj ht).1 (by decide)
        | cons b w => simp [utf8] at ht
    · rw [utf8_cons] at ht
      obtain ⟨w', v', rfl, rfl, h, hu⟩ := h.strip (plain_of_mem_encode hq hc) ht
      obtain ⟨hclosed, rfl, rfl⟩ := ih h hu
      exact ⟨hclosed, (utf8_cons c body).symm, by rw [Lexeme.unescape_cons hc, utf8_cons]⟩

/-- What the grammar says of a piece is what the piece is cut as. -/
structure Reads (piece : Lexeme) (w : List UInt8) (kind : Option Token.Kind) : Prop where
  good : piece.Good
  text : w = utf8 piece.text
  kind : kind = piece.kind?

theorem reads_token {piece : Lexeme} {w : List UInt8} {kind : Token.Kind}
    (hm : piece.meaning = .token kind) (hw : w = utf8 piece.text) : Reads piece w (some kind) := by
  refine ⟨?_, hw, (Lexeme.kind?_eq_some.mpr hm).symm⟩
  intro complaint hb
  rw [hm] at hb
  cases hb

theorem reads_trivia {piece : Lexeme} {w : List UInt8} (hm : piece.meaning = .trivia)
    (hw : w = utf8 piece.text) : Reads piece w none := by
  refine ⟨?_, hw, by rw [Lexeme.kind?, hm]⟩
  intro complaint hb
  rw [hm] at hb
  cases hb

section

variable {c : Char} {rest : List Char} {w r : List UInt8} {kind : Option Token.Kind}

theorem utf8_eq_cons_cons {d : Char} (hd : d.toNat < 0x80) (h : d.toUInt8 :: r = utf8 (c :: rest)) :
    c = d ∧ r = utf8 rest := by
  obtain ⟨more, hc, hr⟩ := (utf8_eq_cons hd).mp h.symm
  cases hc
  exact ⟨rfl, hr⟩

theorem isSymbolChar_of_startsNumber (h : StartsNumber (c :: rest)) : isSymbolChar c := by
  rw [startsNumber_cons, Bool.or_eq_true, Bool.and_eq_true] at h
  rcases h with hd | ⟨hs, -⟩
  · simp [isSymbolChar, Char.isAlphanum, hd]
  · simp only [isSign, Bool.or_eq_true, beq_iff_eq] at hs
    rcases hs with rfl | rfl <;> decide

theorem first_number (h : StartsNumber (c :: rest)) :
    Lexeme.first c rest = .numeral (.ofFront (c :: rest)) := by
  rw [Lexeme.first_of_isSymbolChar (isSymbolChar_of_startsNumber h), if_pos (startsNumber_cons.mp h)]

theorem first_symbol (hc : isSymbolChar c) (h : ¬StartsNumber (c :: rest)) :
    Lexeme.first c rest = .symbol ((c :: rest).takeWhile isSymbolChar) := by
  rw [Lexeme.first_of_isSymbolChar hc, if_neg (mt startsNumber_cons.mpr h),
    List.takeWhile_cons_of_pos hc]

theorem first_single {d : Char} {kind : Token.Kind} (h : (d, kind) ∈ singles) (rest : List Char) :
    (Lexeme.first d rest).meaning = .token kind ∧ (Lexeme.first d rest).text = [d] := by
  simp only [singles, List.mem_cons, Prod.mk.injEq, List.not_mem_nil, or_false] at h
  rcases h with ⟨rfl, rfl⟩ | ⟨rfl, rfl⟩ | ⟨rfl, rfl⟩ | ⟨rfl, rfl⟩ <;> exact ⟨rfl, rfl⟩

theorem first_blank (h : isSpace c) : Lexeme.first c rest = .blank c := by
  rw [Lexeme.first, if_pos h]

theorem first_hash (rest : List Char) :
    Lexeme.first '#' rest = .hash (rest.takeWhile isSymbolChar) := rfl

theorem ascii_of_isSpace {d : Char} (h : isSpace d) : d.toNat < 0x80 := by
  simp only [isSpace, Bool.or_eq_true, beq_iff_eq] at h
  rcases h with (((rfl | rfl) | rfl) | rfl) | rfl <;> decide

theorem isBlank_iff {b : UInt8} : isBlank b ↔ ∃ d, isSpace d ∧ b = d.toUInt8 := by
  have hs : ∀ d ∈ [' ', '\t', '\n', '\x0c', '\r'], isSpace d := by simp [isSpace]
  constructor
  · intro h
    obtain ⟨d, hd, hb⟩ := List.any_eq_true.mp h
    exact ⟨d, hs d hd, (beq_iff_eq.mp hb).symm⟩
  · rintro ⟨d, hd, rfl⟩
    simp only [isSpace, Bool.or_eq_true, beq_iff_eq] at hd
    rcases hd with (((rfl | rfl) | rfl) | rfl) | rfl <;> decide

theorem startsNumber_takeWhile (hc : isSymbolChar c) :
    StartsNumber ((c :: rest).takeWhile isSymbolChar) ↔ StartsNumber (c :: rest) := by
  rw [List.takeWhile_cons_of_pos hc, startsNumber_cons, startsNumber_cons,
    Lexeme.any_isDigit_takeWhile]

theorem reads_comment (hw : ∀ b ∈ w, b ≠ '\n'.toUInt8) (hr : ∀ b ∈ r.head?, b = '\n'.toUInt8)
    (ht : w ++ r = utf8 rest) : Reads (Lexeme.first ';' rest) (';'.toUInt8 :: w) none := by
  have hrun := (decides_inline.run_iff ht).mp ⟨by simpa using hw, by simpa using hr⟩
  rw [Lexeme.first_comment]
  refine reads_trivia rfl ?_
  rw [Lexeme.text, utf8_ascii_cons (by decide), ← hrun]

theorem reads_string {s : String} (hb : Body w (utf8 s.toList))
    (ht : w ++ '"'.toUInt8 :: r = utf8 rest) :
    Reads (Lexeme.first '"' rest) ('"'.toUInt8 :: w ++ ['"'.toUInt8]) (some (.atom (.str s))) := by
  obtain ⟨hclosed, hw, hs⟩ := stringBody_of_body hb ht
  rw [Lexeme.first_quote, if_pos hclosed]
  refine reads_token ?_ ?_
  · rw [Lexeme.meaning, ← utf8_inj.mp hs, String.ofList_toList]
  · rw [Lexeme.text, utf8_append, utf8_ascii_cons (by decide), ← hw]
    rfl

theorem reads_bool {d : Char} {b : Bool} (hx : (d, b) ∈ booleans)
    (hr : ∀ b ∈ r.head?, ¬isSymbolByte b) (ht : [d.toUInt8] ++ r = utf8 rest) :
    Reads (Lexeme.first '#' rest) ['#'.toUInt8, d.toUInt8] (some (.atom (.bool b))) := by
  obtain ⟨hd, hs⟩ := booleans_ascii _ hx
  have hu : [d.toUInt8] = utf8 [d] := (utf8_ascii_cons hd []).symm
  have hrun := (decides_symbol.run_iff ht).mp ⟨by simpa using hs, hr⟩
  rw [first_hash, ← utf8_inj.mp (hu.symm.trans hrun)]
  refine reads_token ?_ ?_
  · simp only [booleans, List.mem_cons, Prod.mk.injEq, List.not_mem_nil, or_false] at hx
    rcases hx with ⟨rfl, rfl⟩ | ⟨rfl, rfl⟩ <;> rfl
  · rw [Lexeme.text, utf8_ascii_cons (by decide), ← hu]

/-- The longest number at the front of a text is the one that is cut off. -/
theorem first_of_longest {n : Number}
    (hl : ∀ m : Number, utf8 m.text <+: utf8 n.text ++ r → m.text.length ≤ n.text.length)
    (ht : utf8 n.text ++ r = utf8 (c :: rest)) : Lexeme.first c rest = .numeral n.toNumeral := by
  have hp : n.text <+: c :: rest := isPrefix_of_utf8 ⟨r, ht⟩
  have hs := n.startsNumber hp
  have hn : n.toNumeral = Numeral.ofFront (c :: rest) := by
    rcases n.eq_ofFront_or_length_lt hp with he | hlt
    · exact he
    · obtain ⟨m, hm⟩ := Number.exists_ofFront hs
      rw [← hm, m.text_toNumeral] at hlt
      have hfront : m.text <+: c :: rest := by
        rw [← m.text_toNumeral, hm]
        exact Numeral.ofFront_text_isPrefix _
      have := hl m (ht ▸ utf8_isPrefix hfront)
      omega
  rw [first_number hs, ← hn]

theorem longest_of_ofFront {n : Number} (hn : n.toNumeral = .ofFront (c :: rest))
    (ht : utf8 n.text ++ r = utf8 (c :: rest)) :
    ∀ m : Number, utf8 m.text <+: utf8 n.text ++ r → m.text.length ≤ n.text.length := by
  intro m hm
  rw [ht] at hm
  rcases m.eq_ofFront_or_length_lt (isPrefix_of_utf8 hm) with he | hlt
  · rw [← m.text_toNumeral, he, ← hn, n.text_toNumeral]
  · rw [← hn, n.text_toNumeral] at hlt
    omega

theorem reads_number {n : Number} {a : Atom} (hm : n.Means a)
    (hl : ∀ m : Number, utf8 m.text <+: utf8 n.text ++ r → m.text.length ≤ n.text.length)
    (ht : utf8 n.text ++ r = utf8 (c :: rest)) :
    Reads (Lexeme.first c rest) (utf8 n.text) (some (.atom a)) := by
  rw [first_of_longest hl ht]
  exact reads_token (by rw [Lexeme.meaning, Number.means_iff.mp hm]; rfl) rfl

theorem reads_symbol {name : String} (hn : name ≠ "") (hs : ¬StartsNumber name.toList)
    (hw : ∀ b ∈ utf8 name.toList, isSymbolByte b) (hr : ∀ b ∈ r.head?, ¬isSymbolByte b)
    (ht : utf8 name.toList ++ r = utf8 (c :: rest)) :
    Reads (Lexeme.first c rest) (utf8 name.toList) (some (.atom (.sym name))) := by
  have hrun : name.toList = (c :: rest).takeWhile isSymbolChar :=
    utf8_inj.mp ((decides_symbol.run_iff ht).mp ⟨hw, hr⟩)
  have hc : isSymbolChar c := by
    by_contra hc
    rw [List.takeWhile_cons_of_neg hc, String.toList_eq_nil_iff] at hrun
    exact hn hrun
  rw [first_symbol hc (by rwa [hrun, startsNumber_takeWhile hc] at hs), ← hrun]
  exact reads_token (by rw [Lexeme.meaning, String.ofList_toList]) rfl

theorem reads_of_piece (h : Piece w r kind) (ht : w ++ r = utf8 (c :: rest)) :
    Reads (Lexeme.first c rest) w kind := by
  cases h with
  | blank hb =>
    obtain ⟨d, hs, rfl⟩ := isBlank_iff.mp hb
    have hd := ascii_of_isSpace hs
    obtain ⟨rfl, -⟩ := utf8_eq_cons_cons hd ht
    rw [first_blank hs]
    exact reads_trivia rfl (utf8_ascii_cons hd []).symm
  | comment hw hr =>
    obtain ⟨rfl, htail⟩ := utf8_eq_cons_cons (by decide) ht
    exact reads_comment hw hr htail
  | single hx =>
    have hd := singles_ascii _ hx
    obtain ⟨rfl, -⟩ := utf8_eq_cons_cons hd ht
    obtain ⟨hm, htext⟩ := first_single hx rest
    exact reads_token hm (by rw [htext, utf8_ascii_cons hd]; rfl)
  | @string w _ s hb =>
    rw [List.cons_append, List.cons_append, List.append_assoc] at ht
    obtain ⟨rfl, htail⟩ := utf8_eq_cons_cons (by decide) ht
    exact reads_string hb htail
  | bool hx hr =>
    obtain ⟨rfl, htail⟩ := utf8_eq_cons_cons (by decide) ht
    exact reads_bool hx hr htail
  | number hm hl => exact reads_number hm hl ht
  | symbol hn hs hw hr => exact reads_symbol hn hs hw hr ht

theorem piece_comment (ht : utf8 (Lexeme.first ';' rest).text ++ r = utf8 (';' :: rest)) :
    Piece (utf8 (Lexeme.first ';' rest).text) r none := by
  rw [Lexeme.first_comment, Lexeme.text, utf8_ascii_cons (by decide)] at ht ⊢
  rw [utf8_ascii_cons (by decide), List.cons_append] at ht
  obtain ⟨hw, hr⟩ := (decides_inline.run_iff (List.cons.inj ht).2).mpr rfl
  exact .comment (by simpa using hw) (by simpa using hr)

theorem piece_string (hg : (Lexeme.first '"' rest).Good) :
    Piece (utf8 (Lexeme.first '"' rest).text) r (Lexeme.first '"' rest).kind? := by
  rw [Lexeme.first_quote] at hg ⊢
  split
  · next hclosed =>
    have hb := body_stringBody hclosed
    rw [← String.toList_ofList (l := Lexeme.unescape _)] at hb
    rw [Lexeme.text, utf8_append, utf8_ascii_cons (by decide)]
    exact .string hb
  · next hopen =>
    rw [if_neg hopen] at hg
    exact (hg _ rfl).elim

theorem exists_boolean {name : List Char} (h : (Lexeme.hash name).Good) :
    ∃ d b, (d, b) ∈ booleans ∧ name = [d] ∧ (Lexeme.hash name).kind? = some (.atom (.bool b)) := by
  by_cases ht : name = ['t']
  · exact ⟨'t', true, by simp [booleans], ht, by rw [ht]; rfl⟩
  by_cases hf : name = ['f']
  · exact ⟨'f', false, by simp [booleans], hf, by rw [hf]; rfl⟩
  refine (h (.unknownLiteral (String.ofList ('#' :: name))) ?_).elim
  rw [Lexeme.meaning] <;> assumption

theorem piece_hash (hg : (Lexeme.first '#' rest).Good)
    (ht : utf8 (Lexeme.first '#' rest).text ++ r = utf8 ('#' :: rest)) :
    Piece (utf8 (Lexeme.first '#' rest).text) r (Lexeme.first '#' rest).kind? := by
  rw [first_hash] at hg
  obtain ⟨d, b, hx, hd, hk⟩ := exists_boolean hg
  rw [first_hash, Lexeme.text, utf8_ascii_cons (by decide)] at ht ⊢
  rw [utf8_ascii_cons (by decide), List.cons_append] at ht
  obtain ⟨-, hr⟩ := (decides_symbol.run_iff (List.cons.inj ht).2).mpr rfl
  rw [hk, hd, utf8_ascii_cons (booleans_ascii _ hx).1]
  exact .bool hx hr

theorem piece_number (hs : StartsNumber (c :: rest)) (hg : (Lexeme.first c rest).Good)
    (ht : utf8 (Lexeme.first c rest).text ++ r = utf8 (c :: rest)) :
    Piece (utf8 (Lexeme.first c rest).text) r (Lexeme.first c rest).kind? := by
  obtain ⟨n, hn⟩ := Number.exists_ofFront hs
  rw [first_number hs, ← hn] at ht hg ⊢
  cases hv : n.toNumeral.value with
  | none => exact (hg _ (by rw [Lexeme.meaning, hv]; rfl)).elim
  | some a =>
    have hk : (Lexeme.numeral n.toNumeral).kind? = some (.atom a) :=
      Lexeme.kind?_eq_some.mpr (by rw [Lexeme.meaning, hv]; rfl)
    rw [hk]
    exact .number (Number.means_iff.mpr hv) (longest_of_ofFront hn ht)

theorem piece_symbol (hc : isSymbolChar c) (hs : ¬StartsNumber (c :: rest))
    (ht : utf8 (Lexeme.first c rest).text ++ r = utf8 (c :: rest)) :
    Piece (utf8 (Lexeme.first c rest).text) r (Lexeme.first c rest).kind? := by
  rw [first_symbol hc hs, Lexeme.text] at ht ⊢
  obtain ⟨hw, hr⟩ := (decides_symbol.run_iff ht).mpr rfl
  rw [← startsNumber_takeWhile hc] at hs
  have hne : String.ofList ((c :: rest).takeWhile isSymbolChar) ≠ "" := by
    rw [Ne, String.ofList_eq_empty_iff, List.takeWhile_cons_of_pos hc]
    exact List.cons_ne_nil _ _
  rw [← String.toList_ofList (l := (c :: rest).takeWhile isSymbolChar)] at hs hw
  have h := Piece.symbol hne hs hw hr
  rw [String.toList_ofList] at h
  exact h

/-- Nothing else starts a piece. -/
theorem first_stray (hspace : ¬isSpace c) (hmarks : c ∉ [';', '"', '#'])
    (hsingle : ¬∃ kind, (c, kind) ∈ singles) (hc : ¬isSymbolChar c) :
    Lexeme.first c rest = .stray c := by
  simp only [singles, List.mem_cons, Prod.mk.injEq, List.not_mem_nil, or_false, exists_or,
    exists_and_left, exists_eq, and_true, not_or] at hsingle hmarks
  have hs : ¬StartsNumber (c :: rest) := mt isSymbolChar_of_startsNumber hc
  have hn := mt startsNumber_cons.mpr hs
  simp only [Lexeme.first, hspace, hmarks, hsingle, hn, hc, beq_iff_eq, ↓reduceIte,
    Bool.false_eq_true]

theorem piece_of_good (hg : (Lexeme.first c rest).Good)
    (ht : utf8 (Lexeme.first c rest).text ++ r = utf8 (c :: rest)) :
    Piece (utf8 (Lexeme.first c rest).text) r (Lexeme.first c rest).kind? := by
  by_cases hspace : isSpace c
  · have hd := ascii_of_isSpace hspace
    rw [first_blank hspace, Lexeme.text, utf8_ascii_cons hd]
    exact .blank (isBlank_iff.mpr ⟨c, hspace, rfl⟩)
  by_cases hsemi : c = ';'
  · subst c
    exact piece_comment ht
  by_cases hsingle : ∃ kind, (c, kind) ∈ singles
  · obtain ⟨kind, hx⟩ := hsingle
    obtain ⟨hm, htext⟩ := first_single hx rest
    rw [htext, Lexeme.kind?_eq_some.mpr hm, utf8_ascii_cons (singles_ascii _ hx)]
    exact .single hx
  by_cases hquote : c = '"'
  · subst c
    exact piece_string hg
  by_cases hhash : c = '#'
  · subst c
    exact piece_hash hg ht
  by_cases hs : StartsNumber (c :: rest)
  · exact piece_number hs hg ht
  by_cases hc : isSymbolChar c
  · exact piece_symbol hc hs ht
  rw [first_stray hspace (by simp [hsemi, hquote, hhash]) hsingle hc] at hg
  exact (hg _ rfl).elim

theorem cutAfter_eq (skip : Nat) (t : List Char) :
    Lexeme.cutAfter skip t = Lexeme.cut (t.drop skip) := by
  induction t generalizing skip with
  | nil =>
    rw [List.drop_nil]
    cases skip <;> rfl
  | cons c rest ih =>
    cases skip with
    | zero => rfl
    | succ skip => exact ih skip

theorem first_text_ne_nil (c : Char) (rest : List Char) : (Lexeme.first c rest).text ≠ [] := by
  by_cases hs : StartsNumber (c :: rest)
  · obtain ⟨n, hn⟩ := Number.exists_ofFront hs
    rw [first_number hs, Lexeme.text, ← hn, Number.text_toNumeral]
    exact n.text_ne_nil
  · have hd := mt startsNumber_cons.mpr hs
    unfold Lexeme.first
    simp only [if_neg hd]
    split_ifs <;> simp [Lexeme.text]

/-- The pieces of a text are its first piece and the pieces of what follows it. -/
theorem cut_cons {more : List Char} (h : (Lexeme.first c rest).text ++ more = c :: rest) :
    Lexeme.cut (c :: rest) = Lexeme.first c rest :: Lexeme.cut more := by
  obtain ⟨d, ds, hd⟩ := List.exists_cons_of_ne_nil (first_text_ne_nil c rest)
  have hm : rest.drop ((Lexeme.first c rest).text.length - 1) = more := by
    rw [hd, List.cons_append] at h
    rw [hd, ← (List.cons.inj h).2]
    exact List.drop_left
  rw [Lexeme.cut, Lexeme.cutAfter, cutAfter_eq, hm]

/-- What is kept when a piece is put in front holds of every text. -/
theorem cut_induction {motive : List Char → Prop} (nil : motive [])
    (cons : ∀ c rest more, (Lexeme.first c rest).text ++ more = c :: rest → motive more →
      motive (c :: rest)) (t : List Char) : motive t := by
  induction hl : t.length using Nat.strong_induction_on generalizing t with
  | _ length ih =>
    cases t with
    | nil => exact nil
    | cons c rest =>
      obtain ⟨more, hm⟩ := Lexeme.first_text_isPrefix c rest
      have hlt : more.length < length := by
        have hlen := congrArg List.length hm
        have hpos := List.length_pos_iff.mpr (first_text_ne_nil c rest)
        rw [List.length_append] at hlen
        omega
      exact cons c rest more hm (ih _ hlt more rfl)

end

theorem utf8_eq_nil {t : List Char} : utf8 t = [] ↔ t = [] := utf8_inj (t := [])

theorem Piece.ne_nil {w r : List UInt8} {kind : Option Token.Kind} (h : Piece w r kind) : w ≠ [] := by
  cases h with
  | @number n => exact mt utf8_eq_nil.mp n.text_ne_nil
  | symbol hn => exact mt utf8_eq_nil.mp (mt String.toList_eq_nil_iff.mp hn)
  | _ => exact List.cons_ne_nil _ _

/-- The cutting that a text has if all its pieces are good. -/
def cuttingOf (t : List Char) : List (List UInt8 × Option Token.Kind) :=
  (Lexeme.cut t).map fun piece => (utf8 piece.text, piece.kind?)

theorem cuttingOf_cons {c : Char} {rest more : List Char}
    (h : (Lexeme.first c rest).text ++ more = c :: rest) : cuttingOf (c :: rest) =
      (utf8 (Lexeme.first c rest).text, (Lexeme.first c rest).kind?) :: cuttingOf more := by
  rw [cuttingOf, cut_cons h, List.map_cons, cuttingOf]

theorem cutting_cuttingOf {t : List Char} (hg : ∀ piece ∈ Lexeme.cut t, piece.Good) :
    Cutting (utf8 t) (cuttingOf t) := by
  induction t using cut_induction with
  | nil => exact .nil
  | cons c rest more hm ih =>
    rw [cut_cons hm] at hg
    obtain ⟨hfirst, hmore⟩ := List.forall_mem_cons.mp hg
    have hp := piece_of_good hfirst (r := utf8 more) (by rw [← utf8_append, hm])
    rw [cuttingOf_cons hm, ← hm, utf8_append]
    exact .cons hp (ih hmore)

theorem Cutting.eq_cuttingOf {t : List Char} {pieces : List (List UInt8 × Option Token.Kind)}
    (h : Cutting (utf8 t) pieces) :
    (∀ piece ∈ Lexeme.cut t, piece.Good) ∧ pieces = cuttingOf t := by
  generalize hb : utf8 t = bytes at h
  induction h generalizing t with
  | nil =>
    obtain rfl := utf8_eq_nil.mp hb
    exact ⟨by simp [Lexeme.cut, Lexeme.cutAfter], rfl⟩
  | @cons w r kind pieces hp _ ih =>
    cases t with
    | nil => exact (hp.ne_nil (List.append_eq_nil_iff.mp hb.symm).1).elim
    | cons c rest =>
      obtain ⟨more, hm⟩ := Lexeme.first_text_isPrefix c rest
      obtain ⟨hgood, rfl, rfl⟩ := reads_of_piece hp hb.symm
      rw [← hm, utf8_append, List.append_cancel_left_eq] at hb
      obtain ⟨hg, rfl⟩ := ih hb
      rw [cuttingOf_cons hm, cut_cons hm]
      exact ⟨List.forall_mem_cons.mpr ⟨hgood, hg⟩, rfl⟩

end Lexicon

/-- A text is scanned without a problem exactly if its bytes can be cut by the grammar; then there is
one cutting, and the tokens are its pieces that are no trivia, and the end. -/
theorem Scan.problems_eq_nil_iff_cutting (text : String) :
    ((ofText text).problems = [] ↔ ∃ pieces, Lexicon.Cutting text.toUTF8.data.toList pieces) ∧
      ∀ pieces, Lexicon.Cutting text.toUTF8.data.toList pieces →
        (∀ others, Lexicon.Cutting text.toUTF8.data.toList others → others = pieces) ∧
        (ofText text).tokens.map Token.kind = pieces.filterMap Prod.snd ++ [.eof] := by
  rw [← utf8_toList]
  have hgood : (ofText text).problems = [] ↔ ∀ piece ∈ Lexeme.cut text.toList, piece.Good :=
    ofLexemes_problems_eq_nil
  constructor
  · rw [hgood]
    constructor
    · intro hg
      exact ⟨_, Lexicon.cutting_cuttingOf hg⟩
    · rintro ⟨pieces, hp⟩
      exact hp.eq_cuttingOf.1
  · intro pieces hp
    obtain ⟨hg, rfl⟩ := hp.eq_cuttingOf
    refine ⟨fun others ho => ho.eq_cuttingOf.2, ?_⟩
    have hk : (Lexicon.cuttingOf text.toList).filterMap Prod.snd =
        Lexeme.kinds (Lexeme.cut text.toList) := by
      rw [Lexicon.cuttingOf, List.filterMap_map]
      rfl
    rw [hk]
    exact ofLexemes_kinds hg

/-- A number ends before a letter that no digit follows, and a point is a symbol. -/
theorem Scan.problems_eq_nil_iff_cutting_backtracked :
    ∃ pieces, Lexicon.Cutting "(+1e- \"a\\q\\n\" -7.);é".toUTF8.data.toList pieces ∧
      pieces.filterMap Prod.snd ++ [.eof] =
        [.lparen, .atom (.int 1), .atom (.sym "e-"), .atom (.str "a\\q\n"), .atom (.int (-7)),
          .atom (.sym "."), .rparen, .eof] := by
  obtain ⟨hiff, hall⟩ := problems_eq_nil_iff_cutting "(+1e- \"a\\q\\n\" -7.);é"
  obtain ⟨pieces, hp⟩ := hiff.mp (by decide +kernel)
  refine ⟨pieces, hp, ?_⟩
  rw [← (hall pieces hp).2]
  decide +kernel

end Lisplet
