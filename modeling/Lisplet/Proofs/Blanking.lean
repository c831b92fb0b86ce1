import Mathlib.Algebra.Order.Ring.Nat
import Lisplet.Proofs.Reporting

/-! What is wrong with a text is local. Every text falls, in one way, into pieces of the grammar and
flaws; with the flaws blanked out, the text has the same tokens at the same places and no problem. -/

namespace Lisplet

open Text

namespace Lexicon

/-- The text is a flaw if the rest follows it: a character that starts nothing, a number sign in front
of no boolean, an integer beyond 64 bits, or a quote with all that follows if no quote closes it. -/
inductive Flaw : List UInt8 → List UInt8 → Complaint → Prop where
  | stray {d rest} : d.toNat < 0x80 → ¬isBlank d.toUInt8 → ¬isSymbolByte d.toUInt8 →
      d ∉ [';', '"', '#'] → (∀ x ∈ singles, d ≠ x.1) →
      Flaw [d.toUInt8] rest (.unexpectedCharacter d)
  | literal {name : String} {rest} : (∀ x ∈ booleans, name ≠ String.singleton x.1) →
      (∀ b ∈ utf8 name.toList, isSymbolByte b) → (∀ b ∈ rest.head?, ¬isSymbolByte b) →
      Flaw ('#'.toUInt8 :: utf8 name.toList) rest (.unknownLiteral ("#" ++ name))
  | number {n : Number} {rest} : (∀ a, ¬n.Means a) →
      (∀ m : Number, utf8 m.text <+: utf8 n.text ++ rest → m.text.length ≤ n.text.length) →
      Flaw (utf8 n.text) rest (.numberOutOfRange (String.ofList n.text))
  | string {w} : (∀ body v rest, Body body v → w ≠ body ++ '"'.toUInt8 :: rest) →
      Flaw ('"'.toUInt8 :: w) [] .unterminatedString

/-- Some bytes, and what they are or what is wrong with them. -/
structure Part where
  text : List UInt8
  content : Except Complaint (Option Token.Kind)

/-- The part is a piece or a flaw if the rest follows it. -/
def Part.StandsBefore (part : Part) (rest : List UInt8) : Prop :=
  match part.content with
  | .ok kind => Piece part.text rest kind
  | .error complaint => Flaw part.text rest complaint

/-- The bytes fall into these parts, from left to right. -/
inductive Division : List UInt8 → List Part → Prop where
  | nil : Division [] []
  | cons {part : Part} {rest parts} : part.StandsBefore rest → Division rest parts →
      Division (part.text ++ rest) (part :: parts)

/-- A line feed stays, and every other byte becomes a space. -/
def blankByte (b : UInt8) : UInt8 := if b = '\n'.toUInt8 then b else ' '.toUInt8

namespace Part

def complaint? (part : Part) : Option Complaint :=
  match part.content with
  | .ok _ => none
  | .error complaint => some complaint

/-- The text, blanked if it is a flaw. -/
def blanked (part : Part) : List UInt8 :=
  match part.content with
  | .ok _ => part.text
  | .error _ => part.text.map blankByte

/-- A piece as it is cut. -/
def ofLexeme (piece : Lexeme) : Part where
  text := utf8 piece.text
  content := match piece.meaning with
    | .trivia => .ok none
    | .token kind => .ok (some kind)
    | .bad complaint => .error complaint

theorem ofLexeme_of_good {piece : Lexeme} (h : piece.Good) :
    ofLexeme piece = ⟨utf8 piece.text, .ok piece.kind?⟩ := by
  unfold ofLexeme Lexeme.kind?
  cases hm : piece.meaning with
  | trivia => rfl
  | token kind => rfl
  | bad complaint => exact (h complaint hm).elim

theorem ofLexeme_of_bad {piece : Lexeme} {complaint : Complaint} (h : piece.meaning = .bad complaint) :
    ofLexeme piece = ⟨utf8 piece.text, .error complaint⟩ := by
  rw [ofLexeme, h]

end Part

theorem stringBody_of_open {t : List Char} (h : (Lexeme.stringBody t).2 = false) :
    (Lexeme.stringBody t).1 = t := by
  fun_induction Lexeme.stringBody t with
  | case1 => rfl
  | case2 => cases h
  | case3 c rest body closed hb ih =>
    rw [hb] at ih
    exact congrArg ('\\' :: c :: ·) (ih h)
  | case4 c rest hq hs body closed hr ih =>
    rw [hr] at ih
    exact congrArg (c :: ·) (ih h)

section

variable {c : Char} {rest : List Char} {w r : List UInt8} {complaint : Complaint}

/-- A quote is closed exactly if the grammar finds a string there. -/
theorem closed_iff_body : (Lexeme.stringBody rest).2 = true ↔
    ∃ body v r, Body body v ∧ utf8 rest = body ++ '"'.toUInt8 :: r := by
  constructor
  · intro h
    have hp := Lexeme.stringBody_isPrefix rest
    rw [if_pos h] at hp
    obtain ⟨more, hm⟩ := hp
    refine ⟨_, _, utf8 more, body_stringBody h, ?_⟩
    rw [← utf8_ascii_cons (by decide), ← utf8_append, utf8_inj]
    exact hm.symm.trans (List.append_assoc ..)
  · rintro ⟨body, v, r, hb, ht⟩
    exact (stringBody_of_body hb ht.symm).1

theorem first_open (h : (Lexeme.stringBody rest).2 = false) :
    Lexeme.first '"' rest = .unterminated rest := by
  rw [Lexeme.first_quote, if_neg (by simp [h]), stringBody_of_open h]

theorem meaning_literal {name : List Char} (h : ∀ x ∈ booleans, name ≠ [x.1]) :
    (Lexeme.hash name).meaning = .bad (.unknownLiteral ("#" ++ String.ofList name)) := by
  have htext : String.ofList ('#' :: name) = "#" ++ String.ofList name :=
    @String.ofList_append ['#'] name
  rw [Lexeme.meaning, htext]
  · exact h ('t', true) (by simp [booleans])
  · exact h ('f', false) (by simp [booleans])

theorem meaning_number {n : Number} (h : ∀ a, ¬n.Means a) :
    (Lexeme.numeral n.toNumeral).meaning = .bad (.numberOutOfRange (String.ofList n.text)) := by
  have hv : n.toNumeral.value = none :=
    Option.eq_none_iff_forall_ne_some.mpr fun a => mt Number.means_iff.mpr (h a)
  rw [Lexeme.meaning, hv]
  rfl

theorem isSymbolByte_of_ascii {d : Char} (h : d.toNat < 0x80) :
    isSymbolByte d.toUInt8 = isSymbolChar d :=
  decides_symbol d _ (by rw [encode_of_ascii h]; exact List.mem_singleton_self _)

/-- The grammar says of a flaw what it is cut as. -/
theorem Flaw.eq_ofLexeme (h : Flaw w r complaint) (ht : w ++ r = utf8 (c :: rest)) :
    ⟨w, .error complaint⟩ = Part.ofLexeme (Lexeme.first c rest) := by
  cases h with
  | @stray d _ hd hblank hsymbol hmarks hsingle =>
    obtain ⟨rfl, -⟩ := utf8_eq_cons_cons hd ht
    have hspace : ¬isSpace c := fun h => hblank (isBlank_iff.mpr ⟨c, h, rfl⟩)
    have hkind : ¬∃ kind, (c, kind) ∈ singles := fun ⟨kind, hx⟩ => hsingle _ hx rfl
    rw [isSymbolByte_of_ascii hd] at hsymbol
    rw [first_stray hspace hmarks hkind hsymbol, Part.ofLexeme_of_bad rfl, Lexeme.text,
      utf8_ascii_cons hd, utf8_eq_nil.mpr rfl]
  | @literal name _ hname hw hr =>
    obtain ⟨rfl, htail⟩ := utf8_eq_cons_cons (by decide) ht
    have hrun : name.toList = rest.takeWhile isSymbolChar :=
      utf8_inj.mp ((decides_symbol.run_iff htail).mp ⟨hw, hr⟩)
    have hn : ∀ x ∈ booleans, name.toList ≠ [x.1] := by
      intro x hx he
      apply hname x hx
      rw [← String.ofList_toList (s := name), he, String.singleton_eq_ofList]
    rw [first_hash, ← hrun, Part.ofLexeme_of_bad (meaning_literal hn), Lexeme.text,
      utf8_ascii_cons (by decide), String.ofList_toList]
  | number hm hl =>
    rw [first_of_longest hl ht, Part.ofLexeme_of_bad (meaning_number hm), Lexeme.text,
      Number.text_toNumeral]
  | string hw =>
    rw [List.append_nil] at ht
    obtain ⟨rfl, htail⟩ := utf8_eq_cons_cons (by decide) ht
    have hopen : (Lexeme.stringBody rest).2 = false := by
      by_contra hclosed
      obtain ⟨body, v, r, hb, he⟩ := closed_iff_body.mp (by simpa using hclosed)
      exact hw body v r hb (htail.trans he)
    rw [first_open hopen, Part.ofLexeme_of_bad rfl, Lexeme.text, utf8_ascii_cons (by decide), ← htail]

theorem flaw_string (hb : (Lexeme.first '"' rest).meaning = .bad complaint)
    (ht : utf8 (Lexeme.first '"' rest).text ++ r = utf8 ('"' :: rest)) :
    Flaw (utf8 (Lexeme.first '"' rest).text) r complaint := by
  have hopen : (Lexeme.stringBody rest).2 = false := by
    by_contra hclosed
    rw [Lexeme.first_quote, if_pos (by simpa using hclosed)] at hb
    cases hb
  rw [first_open hopen] at hb ht ⊢
  cases hb
  -- The flaw takes all that follows the quote.
  obtain rfl : r = [] := List.append_cancel_left (ht.trans (List.append_nil _).symm)
  rw [Lexeme.text, utf8_ascii_cons (by decide)]
  apply Flaw.string
  intro body v r hbody he
  have hclosed := closed_iff_body.mpr ⟨body, v, r, hbody, he⟩
  rw [hopen] at hclosed
  cases hclosed

theorem flaw_literal (hb : (Lexeme.first '#' rest).meaning = .bad complaint)
    (ht : utf8 (Lexeme.first '#' rest).text ++ r = utf8 ('#' :: rest)) :
    Flaw (utf8 (Lexeme.first '#' rest).text) r complaint := by
  rw [first_hash] at hb ht ⊢
  have hn : ∀ x ∈ booleans, rest.takeWhile isSymbolChar ≠ [x.1] := by
    intro x hx he
    rw [he] at hb
    simp only [booleans, List.mem_cons, List.not_mem_nil, or_false] at hx
    rcases hx with rfl | rfl <;> cases hb
  rw [meaning_literal hn] at hb
  cases hb
  rw [Lexeme.text, utf8_ascii_cons (by decide)] at ht ⊢
  rw [utf8_ascii_cons (by decide), List.cons_append] at ht
  obtain ⟨hw, hr⟩ := (decides_symbol.run_iff (List.cons.inj ht).2).mpr rfl
  have hname : ∀ x ∈ booleans, String.ofList (rest.takeWhile isSymbolChar) ≠ String.singleton x.1 := by
    intro x hx he
    exact hn x hx (by rw [← String.toList_ofList (l := rest.takeWhile _), he, String.toList_singleton])
  have h := Flaw.literal hname (by rwa [String.toList_ofList]) hr
  rwa [String.toList_ofList] at h

theorem flaw_number (hs : StartsNumber (c :: rest))
    (hb : (Lexeme.first c rest).meaning = .bad complaint)
    (ht : utf8 (Lexeme.first c rest).text ++ r = utf8 (c :: rest)) :
    Flaw (utf8 (Lexeme.first c rest).text) r complaint := by
  obtain ⟨n, hn⟩ := Number.exists_ofFront hs
  rw [first_number hs, ← hn] at hb ht ⊢
  have hm : ∀ a, ¬n.Means a := by
    intro a h
    rw [Lexeme.meaning, Number.means_iff.mp h] at hb
    cases hb
  rw [meaning_number hm] at hb
  cases hb
  exact .number hm (longest_of_ofFront hn ht)

theorem flaw_stray (hmarks : c ∉ ['"', '#']) (hs : ¬StartsNumber (c :: rest))
    (hb : (Lexeme.first c rest).meaning = .bad complaint) :
    Flaw (utf8 (Lexeme.first c rest).text) r complaint := by
  -- The other pieces are all good.
  have hspace : ¬isSpace c := by
    intro h
    rw [first_blank h] at hb
    cases hb
  have hsemi : c ≠ ';' := by
    rintro rfl
    cases hb
  have hsingle : ¬∃ kind, (c, kind) ∈ singles := by
    rintro ⟨kind, hx⟩
    rw [(first_single hx rest).1] at hb
    cases hb
  have hc : ¬isSymbolChar c := by
    intro h
    rw [first_symbol h hs] at hb
    cases hb
  have hd : c.toNat < 0x80 := by
    by_contra hd
    exact hc (by simp [isSymbolChar, Nat.not_lt.mp hd])
  rw [first_stray hspace (by simpa [hsemi] using hmarks) hsingle hc] at hb ⊢
  cases hb
  rw [Lexeme.text, utf8_ascii_cons hd]
  refine .stray hd ?_ (by rwa [isSymbolByte_of_ascii hd]) (by simpa [hsemi] using hmarks) ?_
  · intro h
    obtain ⟨d, hspace', he⟩ := isBlank_iff.mp h
    exact hspace (toUInt8_inj hd (ascii_of_isSpace hspace') he ▸ hspace')
  · rintro x hx rfl
    exact hsingle ⟨_, hx⟩

theorem flaw_of_bad (hb : (Lexeme.first c rest).meaning = .bad complaint)
    (ht : utf8 (Lexeme.first c rest).text ++ r = utf8 (c :: rest)) :
    Flaw (utf8 (Lexeme.first c rest).text) r complaint := by
  by_cases hquote : c = '"'
  · subst c
    exact flaw_string hb ht
  by_cases hhash : c = '#'
  · subst c
    exact flaw_literal hb ht
  by_cases hs : StartsNumber (c :: rest)
  · exact flaw_number hs hb ht
  exact flaw_stray (by simp [hquote, hhash]) hs hb

theorem standsBefore_ofLexeme (ht : utf8 (Lexeme.first c rest).text ++ r = utf8 (c :: rest)) :
    (Part.ofLexeme (Lexeme.first c rest)).StandsBefore r := by
  by_cases hg : (Lexeme.first c rest).Good
  · rw [Part.ofLexeme_of_good hg]
    exact piece_of_good hg ht
  · obtain ⟨complaint, hb⟩ := not_forall_not.mp hg
    rw [Part.ofLexeme_of_bad hb]
    exact flaw_of_bad hb ht

theorem Part.StandsBefore.eq_ofLexeme {part : Part} (h : part.StandsBefore r)
    (ht : part.text ++ r = utf8 (c :: rest)) : part = ofLexeme (Lexeme.first c rest) := by
  obtain ⟨w, content⟩ := part
  cases content with
  | ok kind =>
    obtain ⟨hg, rfl, rfl⟩ := reads_of_piece h ht
    rw [ofLexeme_of_good hg]
  | error complaint => exact Flaw.eq_ofLexeme h ht

end

theorem Flaw.ne_nil {w r : List UInt8} {complaint : Complaint} (h : Flaw w r complaint) : w ≠ [] := by
  cases h with
  | @number n => exact mt utf8_eq_nil.mp n.text_ne_nil
  | _ => exact List.cons_ne_nil _ _

theorem Part.StandsBefore.ne_nil {part : Part} {r : List UInt8} (h : part.StandsBefore r) :
    part.text ≠ [] := by
  obtain ⟨w, content⟩ := part
  cases content with
  | ok kind => exact Piece.ne_nil h
  | error complaint => exact Flaw.ne_nil h

/-- The parts into which a text is cut. -/
def partsOf (t : List Char) : List Part := (Lexeme.cut t).map Part.ofLexeme

theorem partsOf_cons {c : Char} {rest more : List Char}
    (h : (Lexeme.first c rest).text ++ more = c :: rest) :
    partsOf (c :: rest) = Part.ofLexeme (Lexeme.first c rest) :: partsOf more := by
  rw [partsOf, cut_cons h, List.map_cons, partsOf]

theorem division_partsOf (t : List Char) : Division (utf8 t) (partsOf t) := by
  induction t using cut_induction with
  | nil => exact .nil
  | cons c rest more hm ih =>
    have ht : utf8 (Lexeme.first c rest).text ++ utf8 more = utf8 (c :: rest) := by
      rw [← utf8_append, hm]
    rw [partsOf_cons hm, ← ht]
    exact .cons (standsBefore_ofLexeme ht) ih

theorem Division.eq_partsOf {t : List Char} {parts : List Part} (h : Division (utf8 t) parts) :
    parts = partsOf t := by
  generalize hb : utf8 t = bytes at h
  induction h generalizing t with
  | nil =>
    obtain rfl := utf8_eq_nil.mp hb
    rfl
  | cons hp _ ih =>
    cases t with
    | nil => exact (hp.ne_nil (List.append_eq_nil_iff.mp hb.symm).1).elim
    | cons c rest =>
      obtain ⟨more, hm⟩ := Lexeme.first_text_isPrefix c rest
      obtain rfl := hp.eq_ofLexeme hb.symm
      rw [← hm, utf8_append] at hb
      rw [partsOf_cons hm, ih (List.append_cancel_left hb)]

/-! Blanking. -/

/-- Some bytes of the first text are blanked in the second one. -/
def Fades : List UInt8 → List UInt8 → Prop := List.Forall₂ fun b b' => b' = b ∨ b' = blankByte b

theorem isBlank_blankByte (b : UInt8) : isBlank (blankByte b) := by
  unfold blankByte
  split
  · next h => rw [h]; decide
  · decide

theorem not_isSymbolByte_blankByte (b : UInt8) : ¬isSymbolByte (blankByte b) := by
  unfold blankByte
  split
  · next h => rw [h]; decide
  · decide

theorem blankByte_newline_iff {b : UInt8} : blankByte b = '\n'.toUInt8 ↔ b = '\n'.toUInt8 := by
  unfold blankByte
  split
  · exact Iff.rfl
  · next h => exact ⟨fun he => absurd he (by decide), fun he => (h he).elim⟩

theorem Number.isSymbolChar_of_mem {n : Number} {c : Char} (h : c ∈ n.text) : isSymbolChar c := by
  have digits (ds : Digits) (hc : c ∈ ds.chars) : isSymbolChar c := by
    simp [isSymbolChar, Char.isAlphanum, ds.isDigit c hc]
  have sign (s : Sign) (hc : c ∈ s.text) : isSymbolChar c := by
    cases s <;> simp only [Sign.text, List.mem_singleton, List.not_mem_nil] at hc <;> subst c <;> decide
  simp only [Number.text, List.mem_append] at h
  rcases h with ((hc | hc) | hc) | hc
  · exact sign _ hc
  · exact digits _ hc
  · cases hf : n.fraction with
    | none => simp [hf, Number.fractionText] at hc
    | some ds =>
      rcases List.mem_cons.mp (hf ▸ hc) with rfl | hc
      · decide
      · exact digits _ hc
  · cases he : n.exponent with
    | none => simp [he, Number.exponentText] at hc
    | some e =>
      rcases List.mem_cons.mp (he ▸ hc) with rfl | hc
      · rcases e.isLetter with hl | hl <;> rw [hl] <;> decide
      · rcases List.mem_append.mp hc with hc | hc
        · exact sign _ hc
        · exact digits _ hc

theorem Number.isSymbolByte_of_mem {n : Number} : ∀ b ∈ utf8 n.text, isSymbolByte b := by
  intro b hb
  obtain ⟨c, hc, hb⟩ := List.mem_flatMap.mp hb
  rw [decides_symbol c b hb]
  exact isSymbolChar_of_mem hc

namespace Fades

variable {r r' u u' : List UInt8}

theorem refl (r : List UInt8) : Fades r r := List.forall₂_same.mpr fun _ _ => Or.inl rfl

theorem append (h : Fades r r') (hu : Fades u u') : Fades (r ++ u) (r' ++ u') := List.rel_append h hu

theorem blank (r : List UInt8) : Fades r (r.map blankByte) :=
  List.forall₂_map_right_iff.mpr (List.forall₂_same.mpr fun _ _ => Or.inr rfl)

/-- A run of symbol bytes that shows after blanking stood there before. -/
theorem isPrefix {x : List UInt8} (h : Fades r r') (hx : x <+: r') (hs : ∀ b ∈ x, isSymbolByte b) :
    x <+: r := by
  induction h generalizing x with
  | nil => exact hx
  | @cons b b' r r' hb _ ih =>
    cases x with
    | nil => exact List.nil_prefix
    | cons y x =>
      obtain ⟨rfl, htail⟩ := List.cons_prefix_cons.mp hx
      obtain ⟨hy, hs⟩ := List.forall_mem_cons.mp hs
      rcases hb with rfl | rfl
      · exact List.cons_prefix_cons.mpr ⟨rfl, ih htail hs⟩
      · exact (not_isSymbolByte_blankByte b hy).elim

theorem head_not_symbol (h : Fades r r') (hr : ∀ b ∈ r.head?, ¬isSymbolByte b) :
    ∀ b ∈ r'.head?, ¬isSymbolByte b := by
  cases h with
  | nil => exact hr
  | @cons b b' r r' hb _ =>
    rcases hb with rfl | rfl
    · exact hr
    · simpa using not_isSymbolByte_blankByte b

theorem head_newline (h : Fades r r') (hr : ∀ b ∈ r.head?, b = '\n'.toUInt8) :
    ∀ b ∈ r'.head?, b = '\n'.toUInt8 := by
  cases h with
  | nil => exact hr
  | @cons b b' r r' hb _ =>
    rcases hb with rfl | rfl
    · exact hr
    · simpa using blankByte_newline_iff.mpr (hr b rfl)

theorem past_eq (h : Fades r r') : Position.past r' = Position.past r := by
  have hfeeds : r'.map (· == '\n'.toUInt8) = r.map (· == '\n'.toUInt8) := by
    induction h with
    | nil => rfl
    | @cons b b' r r' hb _ ih =>
      have hfeed : (b' == '\n'.toUInt8) = (b == '\n'.toUInt8) := by
        rcases hb with rfl | rfl
        · rfl
        · rw [Bool.eq_iff_iff, beq_iff_eq, beq_iff_eq, blankByte_newline_iff]
      rw [List.map_cons, List.map_cons, hfeed, ih]
  have hpast (r : List UInt8) : Position.past r = ⟨1 + (r.map (· == '\n'.toUInt8)).count true,
      1 + ((r.map (· == '\n'.toUInt8)).reverse.takeWhile (!·)).length⟩ := by
    simp [Position.past, List.count, List.countP_map, ← List.map_reverse, List.takeWhile_map,
      Function.comp_def, bne]
  rw [hpast, hpast, hfeeds]

end Fades

/-- A piece stays one whatever is blanked after it. -/
theorem Piece.fade {w r r' : List UInt8} {kind : Option Token.Kind} (h : Piece w r kind)
    (hf : Fades r r') : Piece w r' kind := by
  cases h with
  | blank hb => exact .blank hb
  | comment hw hr => exact .comment hw (hf.head_newline hr)
  | single hx => exact .single hx
  | string hb => exact .string hb
  | bool hx hr => exact .bool hx (hf.head_not_symbol hr)
  | number hm hl =>
    refine .number hm fun m hp => hl m ?_
    exact ((Fades.refl _).append hf).isPrefix hp Number.isSymbolByte_of_mem
  | symbol hn hs hw hr => exact .symbol hn hs hw (hf.head_not_symbol hr)

/-- What a part falls into when it is blanked: a piece stays as it is, and of a flaw only blanks are
left. -/
def Part.remains (part : Part) : List Part :=
  match part.content with
  | .ok _ => [part]
  | .error _ => (part.text.map blankByte).map fun b => ⟨[b], .ok none⟩

theorem division_blanks {bs rest : List UInt8} {parts : List Part} (hb : ∀ b ∈ bs, isBlank b)
    (h : Division rest parts) :
    Division (bs ++ rest) (bs.map (fun b => ⟨[b], .ok none⟩) ++ parts) := by
  induction bs with
  | nil => exact h
  | cons b bs ih =>
    obtain ⟨hb, hbs⟩ := List.forall_mem_cons.mp hb
    exact @Division.cons ⟨[b], .ok none⟩ _ _ (.blank hb) (ih hbs)

/-- Blanking its flaws leaves a text that falls into what remains of the parts. -/
theorem Division.blank {bytes : List UInt8} {parts : List Part} (h : Division bytes parts) :
    Division (parts.flatMap Part.blanked) (parts.flatMap Part.remains) ∧
      Fades bytes (parts.flatMap Part.blanked) := by
  induction h with
  | nil => exact ⟨.nil, .nil⟩
  | @cons part rest parts hp _ ih =>
    obtain ⟨hd, hf⟩ := ih
    obtain ⟨text, content⟩ := part
    rw [List.flatMap_cons, List.flatMap_cons]
    cases content with
    | ok kind =>
      have hpiece : Piece text rest kind := hp
      exact ⟨@Division.cons ⟨text, .ok kind⟩ _ _ (hpiece.fade hf) hd, (Fades.refl text).append hf⟩
    | error complaint =>
      have hb : ∀ b ∈ text.map blankByte, isBlank b := by
        intro b hb
        obtain ⟨b', -, rfl⟩ := List.mem_map.mp hb
        exact isBlank_blankByte b'
      exact ⟨division_blanks hb hd, (Fades.blank text).append hf⟩

/-- The tokens of parts that follow some bytes, and the end. -/
def tokensAfter : List UInt8 → List Part → List Token
  | before, [] => [⟨.eof, .point (.past before)⟩]
  | before, part :: parts =>
    let tokens := tokensAfter (before ++ part.text) parts
    match part.content with
    | .ok (some kind) => ⟨kind, .past before, (Position.past (before ++ part.text)).back⟩ :: tokens
    | _ => tokens

theorem tokensAfter_blanks (before bs : List UInt8) (parts : List Part) :
    tokensAfter before (bs.map (fun b => ⟨[b], .ok none⟩) ++ parts) = tokensAfter (before ++ bs) parts := by
  induction bs generalizing before with
  | nil => rw [List.map_nil, List.nil_append, List.append_nil]
  | cons b bs ih =>
    rw [List.map_cons, List.cons_append, tokensAfter, ih, List.append_assoc, List.singleton_append]

theorem tokensAfter_remains {before before' : List UInt8} (hf : Fades before before')
    (parts : List Part) :
    tokensAfter before' (parts.flatMap Part.remains) = tokensAfter before parts := by
  induction parts generalizing before before' with
  | nil => rw [List.flatMap_nil, tokensAfter, tokensAfter, hf.past_eq]
  | cons part parts ih =>
    obtain ⟨text, content⟩ := part
    rw [List.flatMap_cons]
    cases content with
    | ok kind =>
      have hf' := hf.append (Fades.refl text)
      cases kind <;>
        simp only [Part.remains, List.singleton_append, tokensAfter, ih hf', hf.past_eq, hf'.past_eq]
    | error complaint =>
      rw [Part.remains, tokensAfter_blanks, ih (hf.append (Fades.blank text)), tokensAfter]

theorem complaint?_remains (parts : List Part) :
    (parts.flatMap Part.remains).filterMap Part.complaint? = [] := by
  rw [List.filterMap_eq_nil_iff]
  intro part hp
  obtain ⟨⟨text, content⟩, -, hp⟩ := List.mem_flatMap.mp hp
  cases content with
  | ok kind =>
    obtain rfl := List.mem_singleton.mp hp
    rfl
  | error complaint =>
    obtain ⟨b, -, rfl⟩ := List.mem_map.mp hp
    rfl

/-- Blanked bytes are those of spaces and line feeds. -/
theorem exists_utf8_blank (bs : List UInt8) : ∃ t, utf8 t = bs.map blankByte := by
  induction bs with
  | nil => exact ⟨[], rfl⟩
  | cons b bs ih =>
    obtain ⟨t, ht⟩ := ih
    by_cases hb : b = '\n'.toUInt8
    · refine ⟨'\n' :: t, ?_⟩
      rw [utf8_ascii_cons (by decide), ht, List.map_cons, blankByte, if_pos hb, hb]
    · refine ⟨' ' :: t, ?_⟩
      rw [utf8_ascii_cons (by decide), ht, List.map_cons, blankByte, if_neg hb]

theorem exists_utf8_blanked (pieces : List Lexeme) :
    ∃ t, utf8 t = (pieces.map Part.ofLexeme).flatMap Part.blanked := by
  induction pieces with
  | nil => exact ⟨[], rfl⟩
  | cons piece rest ih =>
    obtain ⟨more, hm⟩ := ih
    have hpiece : ∃ t, utf8 t = (Part.ofLexeme piece).blanked := by
      by_cases hg : piece.Good
      · rw [Part.ofLexeme_of_good hg]
        exact ⟨piece.text, rfl⟩
      · obtain ⟨complaint, hb⟩ := not_forall_not.mp hg
        rw [Part.ofLexeme_of_bad hb]
        exact exists_utf8_blank _
    obtain ⟨t, ht⟩ := hpiece
    exact ⟨t ++ more, by rw [utf8_append, ht, hm, List.map_cons, List.flatMap_cons]⟩

/-- Blanking the flaws of a text gives a text, which is cut into what remains of the parts. -/
theorem exists_blanked (t : List Char) : ∃ u, utf8 u = (partsOf t).flatMap Part.blanked ∧
    partsOf u = (partsOf t).flatMap Part.remains := by
  obtain ⟨u, hu⟩ : ∃ u, utf8 u = (partsOf t).flatMap Part.blanked := exists_utf8_blanked _
  have hd := (division_partsOf t).blank.1
  rw [← hu] at hd
  exact ⟨u, hu, hd.eq_partsOf.symm⟩

end Lexicon

open Lexicon

namespace Scan

/-- Where there is room for another problem, scanning has reached the end. -/
theorem tokens_of_room {room : Nat} {before : List UInt8} {pieces : List Lexeme}
    (h : (ofLexemes room (.past before) pieces).problems.length < room) :
    (ofLexemes room (.past before) pieces).tokens = tokensAfter before (pieces.map Part.ofLexeme) := by
  induction pieces generalizing room before with
  | nil => rfl
  | cons piece rest ih =>
    cases room with
    | zero => exact (Nat.not_lt_zero _ h).elim
    | succ room =>
      rw [List.map_cons, tokensAfter, Part.ofLexeme]
      cases hm : piece.meaning with
      | trivia =>
        simp only [ofLexemes, hm, Position.after_past] at h ⊢
        exact ih h
      | token kind =>
        simp only [ofLexemes, hm, Position.after_past, addToken, Span.ofText] at h ⊢
        rw [ih h]
      | bad complaint =>
        simp only [ofLexemes, hm, Position.after_past, addProblem, List.length_cons] at h ⊢
        exact ih (Nat.lt_of_succ_lt_succ h)

/-- The flaws are reported from the front, as many as there is room for. -/
theorem complaints_eq (room : Nat) (p : Position) (pieces : List Lexeme) :
    (ofLexemes room p pieces).problems.map Problem.complaint =
      ((pieces.map Part.ofLexeme).filterMap Part.complaint?).take room := by
  induction pieces generalizing room p with
  | nil => rw [List.map_nil, List.filterMap_nil, List.take_nil]; rfl
  | cons piece rest ih =>
    rw [List.map_cons]
    by_cases hg : piece.Good
    · have hc : (Part.ofLexeme piece).complaint? = none := by
        rw [Part.ofLexeme_of_good hg, Part.complaint?]
      rw [List.filterMap_cons_none hc]
      cases hm : piece.meaning with
      | trivia => simp only [ofLexemes, hm, ih]
      | token kind =>
        cases room with
        | zero => simp [ofLexemes, hm, endAt]
        | succ room => simp only [ofLexemes, hm, addToken, ih]
      | bad complaint => exact (hg complaint hm).elim
    · obtain ⟨complaint, hb⟩ := not_forall_not.mp hg
      have hc : (Part.ofLexeme piece).complaint? = some complaint := by
        rw [Part.ofLexeme_of_bad hb, Part.complaint?]
      rw [List.filterMap_cons_some hc]
      cases room with
      | zero => simp [ofLexemes, hb, endAt]
      | succ room => simp only [ofLexemes, hb, addProblem, List.map_cons, ih, List.take_succ_cons]

end Scan

namespace Source

theorem exists_tokens_eof (s : Source) : ∃ before place,
    s.scan.tokens = before ++ [⟨.eof, .point place⟩] ∧ ∀ t ∈ before, t.kind ≠ .eof := by
  obtain ⟨front, n, -, -, hscan, -⟩ := s.scan_placed
  refine ⟨_, _, congrArg Scan.tokens hscan, ?_⟩
  intro t ht hk
  obtain ⟨x, -, hx⟩ := List.mem_filterMap.mp ht
  have hm := (Stretch.token?_eq_some.mp hx).1
  rw [hk] at hm
  exact x.piece.meaning_ne_eof hm

theorem tokens_of_room {s : Source} (h : s.scan.problems.length < 20) :
    s.scan.tokens = tokensAfter [] (partsOf s.text.toList) :=
  @Scan.tokens_of_room 20 [] (Lexeme.cut s.text.toList) h

theorem complaints_eq (s : Source) : s.scan.problems.map Problem.complaint =
    ((partsOf s.text.toList).filterMap Part.complaint?).take 20 :=
  Scan.complaints_eq _ _ _

/-- A text that is cut into what remains of another one has its tokens and no problem. -/
theorem scan_eq_of_remains {s t : Source} (h : s.scan.problems.length < 20)
    (ht : partsOf t.text.toList = (partsOf s.text.toList).flatMap Part.remains) :
    t.scan = ⟨s.scan.tokens, []⟩ := by
  have hproblems : t.scan.problems = [] := by
    rw [← List.map_eq_nil_iff (f := Problem.complaint), complaints_eq, ht, complaint?_remains,
      List.take_nil]
  have htokens : t.scan.tokens = s.scan.tokens := by
    rw [tokens_of_room h, tokens_of_room (by simp [hproblems]), ht, tokensAfter_remains (.refl [])]
  rw [← htokens, ← hproblems]

theorem report_scan (s : Source) :
    (s.report s.scan.problems).errors = s.scan.problems.map s.diagnose ∧
      (s.report s.scan.problems).total = (s.report s.scan.problems).errors.length ∧
      (s.report s.scan.problems).total ≤ 20 := by
  have hl : (s.scan.problems.map s.diagnose).length ≤ 20 := by
    rw [List.length_map]
    exact Scan.length_problems_le 20 _ _
  rw [report, Report.ofList_eq hl]
  exact ⟨rfl, rfl, hl⟩

/-- Every text falls into pieces and flaws in one way. The first twenty flaws are reported, and if there
are fewer, blanking them all leaves a text without problems that has the same tokens at the same
places. -/
theorem flaws_are_local (s : Source) :
    (∃ parts, Division s.bytes parts ∧ (∀ others, Division s.bytes others → others = parts) ∧
      s.scan.problems.map Problem.complaint = (parts.filterMap Part.complaint?).take 20 ∧
      (s.scan.problems.length < 20 → ∃ t : Source, t.bytes = parts.flatMap Part.blanked ∧
        t.scan = ⟨s.scan.tokens, []⟩)) ∧
    (∃ before place, s.scan.tokens = before ++ [⟨.eof, .point place⟩] ∧
      ∀ t ∈ before, t.kind ≠ .eof) ∧
    (s.report s.scan.problems).errors = s.scan.problems.map s.diagnose ∧
    (s.report s.scan.problems).total = (s.report s.scan.problems).errors.length ∧
    (s.report s.scan.problems).total ≤ 20 := by
  refine ⟨⟨partsOf s.text.toList, ?_, ?_, s.complaints_eq, ?_⟩, s.exists_tokens_eof, s.report_scan⟩
  · rw [bytes_eq]
    exact division_partsOf _
  · intro others ho
    rw [bytes_eq] at ho
    exact ho.eq_partsOf
  · intro hroom
    obtain ⟨t, hbytes, hparts⟩ := exists_blanked s.text.toList
    rw [← String.toList_ofList (l := t)] at hbytes hparts
    refine ⟨⟨s.name, String.ofList t⟩, ?_, scan_eq_of_remains hroom hparts⟩
    rw [bytes_eq, hbytes]

/-- Each kind of flaw, beside tokens that look at it. -/
theorem flaws_are_local_crowded :
    let s := Source.mk "" "(a#tx 1-99999999999999999999[b\"é\n"
    s.scan.problems.length = 4 ∧ ∃ t : Source,
      t.bytes = (Source.mk "" "(a    1                      b   \n").bytes ∧ t.scan = ⟨s.scan.tokens, []⟩ := by
  intro s
  obtain ⟨⟨parts, hd, -, -, hlocal⟩, -⟩ := s.flaws_are_local
  have hfour : s.scan.problems.length = 4 := by decide +kernel
  obtain ⟨t, hbytes, hscan⟩ := hlocal (by omega)
  refine ⟨hfour, t, ?_, hscan⟩
  rw [bytes_eq] at hd
  rw [hbytes, hd.eq_partsOf]
  decide +kernel

end Source

end Lisplet
