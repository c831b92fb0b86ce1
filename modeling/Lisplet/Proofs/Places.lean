import Mathlib.Algebra.Order.Ring.Nat
import Mathlib.Data.List.Nodup
import Mathlib.Data.List.TakeWhile
import Lisplet.Proofs.Lexicon

/-! Bytes and their places. The place of a byte is found by counting: the line feeds before it, and
the bytes since the last of them. The pieces of a text cover its bytes one after another, so the
positions that scanning carries along are the places of the bytes at which pieces start and end. -/

namespace Lisplet

open Text Lexicon

namespace Position

/-- The place after some bytes. -/
def past (bytes : List UInt8) : Position :=
  ⟨1 + bytes.count '\n'.toUInt8, 1 + (bytes.reverse.takeWhile (· != '\n'.toUInt8)).length⟩

/-- The place of the byte with this index. -/
def ofByte (bytes : List UInt8) (i : Nat) : Position := past (bytes.take i)

instance : LT Position :=
  ⟨fun a b => a.line < b.line ∨ a.line = b.line ∧ a.column < b.column⟩

theorem le_iff {a b : Position} :
    a ≤ b ↔ a.line < b.line ∨ a.line = b.line ∧ a.column ≤ b.column := Iff.rfl

theorem lt_iff {a b : Position} :
    a < b ↔ a.line < b.line ∨ a.line = b.line ∧ a.column < b.column := Iff.rfl

theorem le_refl (a : Position) : a ≤ a := Or.inr ⟨rfl, Nat.le_refl _⟩

theorem le_trans {a b c : Position} (h : a ≤ b) (h' : b ≤ c) : a ≤ c := by
  rw [le_iff] at *
  omega

theorem le_total (a b : Position) : a ≤ b ∨ b ≤ a := by
  rw [le_iff, le_iff]
  omega

theorem le_of_lt {a b : Position} (h : a < b) : a ≤ b := by
  rw [lt_iff] at h
  rw [le_iff]
  omega

theorem lt_trans {a b c : Position} (h : a < b) (h' : b < c) : a < c := by
  rw [lt_iff] at *
  omega

theorem min_eq_left {a b : Position} (h : a ≤ b) : min a b = a := if_pos h

theorem min_eq_or (a b : Position) : min a b = a ∨ min a b = b := by
  by_cases h : a ≤ b
  · exact Or.inl (if_pos h)
  · exact Or.inr (if_neg h)

theorem min_le_left (a b : Position) : min a b ≤ a := by
  by_cases h : a ≤ b
  · exact (min_eq_left h).symm ▸ le_refl a
  · have hm : min a b = b := if_neg h
    exact hm.symm ▸ (le_total a b).resolve_left h

theorem max_eq_or (a b : Position) : max a b = a ∨ max a b = b := by
  by_cases h : a ≤ b
  · exact Or.inr (if_pos h)
  · exact Or.inl (if_neg h)

theorem le_max_left (a b : Position) : a ≤ max a b := by
  by_cases h : a ≤ b
  · have hm : max a b = b := if_pos h
    exact hm.symm ▸ h
  · have hm : max a b = a := if_neg h
    exact hm.symm ▸ le_refl a

variable {bytes bs es : List UInt8}

theorem past_newline (bs : List UInt8) :
    past (bs ++ ['\n'.toUInt8]) = ⟨(past bs).line + 1, 1⟩ := by
  simp [past, Nat.add_assoc]

theorem past_inline (he : ∀ b ∈ es, b ≠ '\n'.toUInt8) :
    past (bs ++ es) = ⟨(past bs).line, (past bs).column + es.length⟩ := by
  have hc : es.count '\n'.toUInt8 = 0 := List.count_eq_zero.mpr fun h => he _ h rfl
  have ht : (es.reverse ++ bs.reverse).takeWhile (· != '\n'.toUInt8) =
      es.reverse ++ bs.reverse.takeWhile (· != '\n'.toUInt8) :=
    List.takeWhile_append_of_pos (by simpa using he)
  rw [past, List.count_append, hc, List.reverse_append, ht, List.length_append, List.length_reverse]
  simp only [past, Position.mk.injEq]
  omega

/-- Moving over a character moves over all its bytes. -/
theorem next_past (bs : List UInt8) (c : Char) :
    (past bs).next c = past (bs ++ String.utf8EncodeChar c) := by
  by_cases hc : c = '\n'
  · rw [next, if_pos hc, hc, encode_of_ascii (by decide), past_newline]
  · rw [next, if_neg hc, past_inline (ne_of_mem_encode (by decide) hc),
      String.length_utf8EncodeChar]

theorem after_past (bs : List UInt8) (t : List Char) : (past bs).after t = past (bs ++ utf8 t) := by
  induction t generalizing bs with
  | nil => rw [utf8, List.flatMap_nil, List.append_nil, after, List.foldl_nil]
  | cons c rest ih =>
    have hstep : (past bs).after (c :: rest) = ((past bs).next c).after rest := rfl
    rw [hstep, next_past, ih, utf8_cons, List.append_assoc]

/-- Going back from a line feed stays behind it. -/
theorem back_newline (bs : List UInt8) :
    (past (bs ++ ['\n'.toUInt8])).back = past (bs ++ ['\n'.toUInt8]) := by
  rw [past_newline, back]
  rfl

theorem back_inline {b : UInt8} (hb : b ≠ '\n'.toUInt8) : (past (bs ++ [b])).back = past bs := by
  have hp : 1 ≤ (past bs).column := by
    simp only [past]
    omega
  rw [past_inline (by simpa using hb), back, List.length_singleton, Nat.add_sub_cancel,
    Nat.max_eq_right hp]

/-- A text whose last byte is a line feed ends with this character. -/
theorem eq_newline_of_utf8 {t : List Char} (h : utf8 t = es ++ ['\n'.toUInt8]) :
    ∃ u, t = u ++ ['\n'] := by
  rcases t.eq_nil_or_concat' with rfl | ⟨u, c, rfl⟩
  · simp [utf8] at h
  · refine ⟨u, ?_⟩
    obtain ⟨ds, d, hd⟩ := (String.utf8EncodeChar c).eq_nil_or_concat'.resolve_left
      String.utf8EncodeChar_ne_nil
    have hbytes : utf8 [c] = ds ++ [d] := by rw [← hd, utf8, List.flatMap_singleton]
    rw [utf8_append, hbytes, ← List.append_assoc] at h
    obtain rfl := (List.append_singleton_inj.mp h).2
    by_contra hc
    have hne : c ≠ '\n' := fun he => hc (by rw [he])
    exact ne_of_mem_encode (by decide) hne _ (by simp [hd]) rfl

theorem past_lt_snoc (bs : List UInt8) (b : UInt8) : past bs < past (bs ++ [b]) := by
  rw [lt_iff]
  by_cases hb : b = '\n'.toUInt8
  · rw [hb, past_newline]
    exact Or.inl (Nat.lt_succ_self _)
  · rw [past_inline (by simpa using hb)]
    exact Or.inr ⟨rfl, Nat.lt_succ_self _⟩

/-- Later bytes have later places. -/
theorem ofByte_lt {i j : Nat} (hij : i < j) (hj : j ≤ bytes.length) :
    ofByte bytes i < ofByte bytes j := by
  induction j with
  | zero => omega
  | succ j ih =>
    have hstep : ofByte bytes j < ofByte bytes (j + 1) := by
      rw [ofByte, ofByte, List.take_succ_eq_append_getElem hj]
      exact past_lt_snoc _ _
    rcases Nat.lt_succ_iff_lt_or_eq.mp hij with h | rfl
    · exact lt_trans (ih h (by omega)) hstep
    · exact hstep

theorem ofByte_le {i j : Nat} (hij : i ≤ j) (hj : j ≤ bytes.length) :
    ofByte bytes i ≤ ofByte bytes j := by
  rcases Nat.lt_or_eq_of_le hij with h | rfl
  · exact le_of_lt (ofByte_lt h hj)
  · exact le_refl _

/-- Line and column are numbers of 32 bits. -/
def Fits (p : Position) : Prop := p.line < 2 ^ 32 ∧ p.column < 2 ^ 32

theorem fits_ofByte (h : bytes.length < 2 ^ 32 - 1) (i : Nat) : (ofByte bytes i).Fits := by
  have hl := List.length_take_le' i bytes
  have hline := List.count_le_length (a := '\n'.toUInt8) (l := bytes.take i)
  have hcolumn := ((bytes.take i).reverse.takeWhile_prefix (· != '\n'.toUInt8)).length_le
  rw [List.length_reverse] at hcolumn
  simp only [Fits, ofByte, past]
  omega

end Position

namespace Lexeme

/-- The piece is cut off the front of some text. -/
def Front (piece : Lexeme) : Prop := ∃ c rest, piece = first c rest

theorem Front.text_ne_nil {piece : Lexeme} (h : piece.Front) : piece.text ≠ [] := by
  obtain ⟨c, rest, rfl⟩ := h
  exact first_text_ne_nil c rest

theorem endsBefore_newline {c : Char} (hc : c ≠ '"') (rest : List Char) :
    (first c rest).EndsBefore '\n' := by
  simp only [first, beq_iff_eq, if_neg hc]
  split_ifs <;> simp [EndsBefore]

/-- Only a line feed itself and a string that is never closed can end with a line feed. -/
theorem Front.eq_of_getLast {piece : Lexeme} (h : piece.Front) {u : List Char}
    (hu : piece.text = u ++ ['\n']) : piece = .blank '\n' ∨ ∃ body, piece = .unterminated body := by
  obtain ⟨c, rest, rfl⟩ := h
  obtain ⟨more, hm⟩ := first_text_isPrefix c rest
  rw [hu, List.append_assoc, List.singleton_append] at hm
  cases u with
  | nil =>
    obtain ⟨rfl, -⟩ := List.cons.inj hm
    exact Or.inl rfl
  | cons d u =>
    obtain ⟨rfl, hr⟩ := List.cons.inj hm
    by_cases hq : d = '"'
    · subst d
      by_cases hs : (stringBody rest).2 = true
      · rw [first_quote, if_pos hs, text] at hu
        have hlast := (List.append_singleton_inj.mp hu).2
        simp at hlast
      · exact Or.inr ⟨_, by rw [first_quote, if_neg hs]⟩
    · -- The piece would end before the line feed.
      have hr : u ++ '\n' :: more = rest := hr
      rw [← hr, first_stop (by decide) (endsBefore_newline hq u)] at hu
      have hl := (first_text_isPrefix d u).length_le
      simp only [hu, List.length_append, List.length_cons, List.length_nil] at hl
      omega

/-- The pieces of a text make up the text, and each is the front of what is left there. -/
theorem cut_covers (t : List Char) :
    (cut t).flatMap text = t ∧ ∀ piece ∈ cut t, piece.Front := by
  induction t using cut_induction with
  | nil => exact ⟨rfl, by simp [cut, cutAfter]⟩
  | cons c rest more hm ih =>
    obtain ⟨ht, hp⟩ := ih
    have hf : (first c rest).Front := ⟨c, rest, rfl⟩
    rw [cut_cons hm, List.flatMap_cons, ht, hm]
    exact ⟨rfl, List.forall_mem_cons.mpr ⟨hf, hp⟩⟩

end Lexeme

/-- A piece of a text, and the number of bytes before it. -/
structure Stretch where
  start : Nat
  piece : Lexeme

namespace Stretch

/-- The index after the last byte. -/
def stop (x : Stretch) : Nat := x.start + (utf8 x.piece.text).length

/-- The index of the last byte. -/
def last (x : Stretch) : Nat := x.stop - 1

/-- The bytes from the first to the last are those of the piece. -/
structure Fills (bytes : List UInt8) (x : Stretch) : Prop where
  start_le : x.start ≤ x.last
  last_lt : x.last < bytes.length
  text_eq : (bytes.drop x.start).take (x.last + 1 - x.start) = utf8 x.piece.text

/-- The token that the piece is, at its place. -/
def token? (bytes : List UInt8) (x : Stretch) : Option Token :=
  match x.piece.meaning with
  | .token kind => some ⟨kind, .ofByte bytes x.start, .ofByte bytes x.last⟩
  | _ => none

/-- What is wrong with the piece, at its place. -/
def problem? (bytes : List UInt8) (x : Stretch) : Option Problem :=
  match x.piece.meaning with
  | .bad complaint => some ⟨complaint, .ofText (.ofByte bytes x.start) x.piece.text⟩
  | _ => none

/-- Pieces one after another. -/
def ofLexemes : Nat → List Lexeme → List Stretch
  | _, [] => []
  | start, piece :: rest => ⟨start, piece⟩ :: ofLexemes (Stretch.mk start piece).stop rest

theorem stop_mk (start : Nat) (piece : Lexeme) :
    (Stretch.mk start piece).stop = start + (utf8 piece.text).length := rfl

variable {bytes before more : List UInt8} {start : Nat} {piece : Lexeme} {pieces : List Lexeme}

theorem start_lt_stop (h : piece.Front) : start < (Stretch.mk start piece).stop := by
  have hne := mt utf8_eq_nil.mp h.text_ne_nil
  have hpos := List.length_pos_iff.mpr hne
  rw [stop_mk]
  omega

theorem fills_append (h : piece.Front) (hb : before ++ (utf8 piece.text ++ more) = bytes) :
    Fills bytes ⟨before.length, piece⟩ := by
  have hlt := @start_lt_stop before.length _ h
  have hstop := stop_mk before.length piece
  have hlen := congrArg List.length hb
  simp only [List.length_append] at hlen
  refine ⟨?_, ?_, ?_⟩
  · exact Nat.le_sub_one_of_lt hlt
  · rw [last]
    omega
  · have hs : (Stretch.mk before.length piece).last + 1 - before.length =
        (utf8 piece.text).length := by
      rw [last]
      omega
    rw [hs, ← hb, List.drop_left, List.take_left]

/-- What stands before a piece and after it. -/
theorem exists_append_of_mem {x : Stretch} (hp : ∀ piece ∈ pieces, piece.Front)
    (hb : before ++ utf8 (pieces.flatMap Lexeme.text) = bytes)
    (hx : x ∈ ofLexemes before.length pieces) : x.piece.Front ∧ ∃ before more,
      x.start = before.length ∧ before ++ (utf8 x.piece.text ++ more) = bytes := by
  induction pieces generalizing before with
  | nil => cases hx
  | cons piece rest ih =>
    obtain ⟨hf, hr⟩ := List.forall_mem_cons.mp hp
    rw [List.flatMap_cons, utf8_append] at hb
    rcases List.mem_cons.mp hx with rfl | hx
    · exact ⟨hf, before, _, rfl, hb⟩
    · rw [← List.append_assoc] at hb
      refine ih hr hb ?_
      rwa [List.length_append]

theorem le_start_of_mem {x : Stretch} (hx : x ∈ ofLexemes start pieces) : start ≤ x.start := by
  induction pieces generalizing start with
  | nil => cases hx
  | cons piece rest ih =>
    rcases List.mem_cons.mp hx with rfl | hx
    · exact Nat.le_refl _
    · exact Nat.le_trans (Nat.le_add_right _ _) (ih hx)

/-- The pieces do not overlap. -/
theorem pairwise_ofLexemes (hp : ∀ piece ∈ pieces, piece.Front) :
    (ofLexemes start pieces).Pairwise fun x y => x.last < y.start := by
  induction pieces generalizing start with
  | nil => exact .nil
  | cons piece rest ih =>
    obtain ⟨hf, hr⟩ := List.forall_mem_cons.mp hp
    refine .cons (fun y hy => ?_) (ih hr)
    have hlt := @start_lt_stop start _ hf
    have hle := le_start_of_mem hy
    rw [last]
    omega

/-- The span of a piece goes from its first byte to its last, or to the place behind it if it ends
with a line feed. -/
theorem ofText_eq (h : piece.Front) (hb : before ++ (utf8 piece.text ++ more) = bytes) :
    ∃ j, before.length ≤ j ∧ j ≤ bytes.length ∧
      Span.ofText (.past before) piece.text = ⟨.ofByte bytes before.length, .ofByte bytes j⟩ ∧
      ((∀ u, piece.text ≠ u ++ ['\n']) → j = (Stretch.mk before.length piece).last) := by
  obtain ⟨es, b, he⟩ := (utf8 piece.text).eq_nil_or_concat'.resolve_left
    (mt utf8_eq_nil.mp h.text_ne_nil)
  have hlast : (Stretch.mk before.length piece).last = before.length + es.length := by
    rw [last, stop_mk, he, List.length_append, List.length_singleton]
    omega
  have hlen := congrArg List.length hb
  simp only [he, List.length_append, List.length_singleton] at hlen
  have hfirst : Position.ofByte bytes before.length = .past before := by
    rw [Position.ofByte, ← hb, List.take_left]
  rw [Span.ofText, Position.after_past, hfirst, he, ← List.append_assoc]
  by_cases hn : b = '\n'.toUInt8
  · refine ⟨before.length + (es.length + 1), by omega, by omega, ?_, ?_⟩
    · have hbehind : Position.ofByte bytes (before.length + (es.length + 1)) =
          .past (before ++ es ++ [b]) := by
        rw [Position.ofByte, ← hb, he, ← List.append_assoc, ← List.append_assoc]
        exact congrArg _ (List.take_left' (by simp))
      rw [hbehind, hn, Position.back_newline]
    · intro hu
      obtain ⟨u, hu'⟩ := Position.eq_newline_of_utf8 (hn ▸ he)
      exact (hu u hu').elim
  · refine ⟨before.length + es.length, by omega, by omega, ?_, fun _ => hlast.symm⟩
    have hbyte : Position.ofByte bytes (before.length + es.length) = .past (before ++ es) := by
      rw [Position.ofByte, ← hb, he, List.append_assoc, ← List.append_assoc]
      exact congrArg _ (List.take_left' (by simp))
    rw [hbyte, Position.back_inline hn]

end Stretch

namespace Scan

/-- A token never ends with a line feed, so its span ends with its last byte. -/
theorem ofText_of_token {bytes before more : List UInt8} {piece : Lexeme} {kind : Token.Kind}
    (hf : piece.Front) (hm : piece.meaning = .token kind)
    (hb : before ++ (utf8 piece.text ++ more) = bytes) :
    Span.ofText (.past before) piece.text =
      ⟨.ofByte bytes before.length, .ofByte bytes (Stretch.mk before.length piece).last⟩ := by
  obtain ⟨j, -, -, hspan, hj⟩ := Stretch.ofText_eq hf hb
  rw [hspan, hj]
  intro u hu
  rcases hf.eq_of_getLast hu with rfl | ⟨body, rfl⟩ <;> cases hm

/-- Scanning takes pieces from the front, each at its place, and stops at the end or where there is
no room for another problem. -/
theorem ofLexemes_placed {bytes before : List UInt8} {pieces : List Lexeme} (room : Nat)
    (hp : ∀ piece ∈ pieces, piece.Front) (hb : before ++ utf8 (pieces.flatMap Lexeme.text) = bytes) :
    ∃ front n, front <+: Stretch.ofLexemes before.length pieces ∧ n ≤ bytes.length ∧
      ofLexemes room (.past before) pieces =
        ⟨front.filterMap (Stretch.token? bytes) ++ [⟨.eof, .point (.ofByte bytes n)⟩],
          front.filterMap (Stretch.problem? bytes)⟩ ∧
      (room ≠ 0 → (∀ piece ∈ pieces, piece.Good) → n = bytes.length) := by
  induction pieces generalizing before room with
  | nil =>
    have hall : before = bytes := by simpa [utf8] using hb
    refine ⟨[], before.length, List.nil_prefix, by rw [hall], ?_, fun _ _ => by rw [hall]⟩
    rw [ofLexemes, endAt, hall, Position.ofByte, List.take_length]
    rfl
  | cons piece rest ih =>
    obtain ⟨hf, hr⟩ := List.forall_mem_cons.mp hp
    rw [List.flatMap_cons, utf8_append] at hb
    have hstart : Position.past before = .ofByte bytes before.length := by
      rw [Position.ofByte, ← hb, List.take_left]
    have hle : before.length ≤ bytes.length := by
      rw [← hb, List.length_append]
      omega
    -- Where scanning goes on, the piece comes in front of what is taken of the others.
    have hrest (room : Nat) := ih room hr ((List.append_assoc ..).trans hb)
    simp only [List.length_append, ← Position.after_past] at hrest
    cases hm : piece.meaning with
    | trivia =>
      obtain ⟨front, n, hfront, hn, hscan, hend⟩ := hrest room
      refine ⟨⟨before.length, piece⟩ :: front, n, ?_, hn, ?_, ?_⟩
      · exact List.cons_prefix_cons.mpr ⟨rfl, hfront⟩
      · simp [ofLexemes, hm, hscan, Stretch.token?, Stretch.problem?]
      · exact fun h hg => hend h (List.forall_mem_cons.mp hg).2
    | token kind =>
      cases room with
      | zero =>
        refine ⟨[], before.length, List.nil_prefix, hle, ?_, fun h => (h rfl).elim⟩
        simp [ofLexemes, hm, endAt, hstart]
      | succ room =>
        obtain ⟨front, n, hfront, hn, hscan, hend⟩ := hrest (room + 1)
        refine ⟨⟨before.length, piece⟩ :: front, n, ?_, hn, ?_, ?_⟩
        · exact List.cons_prefix_cons.mpr ⟨rfl, hfront⟩
        · simp [ofLexemes, hm, hscan, Stretch.token?, Stretch.problem?, addToken,
            ofText_of_token hf hm hb]
        · exact fun h hg => hend h (List.forall_mem_cons.mp hg).2
    | bad complaint =>
      cases room with
      | zero =>
        refine ⟨[], before.length, List.nil_prefix, hle, ?_, fun h => (h rfl).elim⟩
        simp [ofLexemes, hm, endAt, hstart]
      | succ room =>
        obtain ⟨front, n, hfront, hn, hscan, -⟩ := hrest room
        refine ⟨⟨before.length, piece⟩ :: front, n, ?_, hn, ?_, ?_⟩
        · exact List.cons_prefix_cons.mpr ⟨rfl, hfront⟩
        · simp [ofLexemes, hm, hscan, Stretch.token?, Stretch.problem?, addProblem, ← hstart]
        · exact fun _ hg => ((List.forall_mem_cons.mp hg).1 complaint hm).elim

end Scan

namespace Source

def bytes (s : Source) : List UInt8 := s.text.toUTF8.data.toList

/-- The pieces of the text at their places. -/
def stretches (s : Source) : List Stretch := Stretch.ofLexemes 0 (Lexeme.cut s.text.toList)

theorem bytes_eq (s : Source) : s.bytes = utf8 s.text.toList := (utf8_toList s.text).symm

theorem covers (s : Source) :
    [] ++ utf8 ((Lexeme.cut s.text.toList).flatMap Lexeme.text) = s.bytes := by
  rw [(Lexeme.cut_covers _).1, List.nil_append, bytes_eq]

theorem exists_append_of_mem_stretches {s : Source} {x : Stretch} (hx : x ∈ s.stretches) :
    x.piece.Front ∧ ∃ before more,
      x.start = before.length ∧ before ++ (utf8 x.piece.text ++ more) = s.bytes :=
  Stretch.exists_append_of_mem (Lexeme.cut_covers _).2 s.covers hx

theorem fills_of_mem_stretches {s : Source} {x : Stretch} (hx : x ∈ s.stretches) :
    x.Fills s.bytes := by
  obtain ⟨start, piece⟩ := x
  obtain ⟨hf, before, more, rfl, hb⟩ := exists_append_of_mem_stretches hx
  exact Stretch.fills_append hf hb

theorem pairwise_stretches (s : Source) : s.stretches.Pairwise fun x y => x.last < y.start :=
  Stretch.pairwise_ofLexemes (Lexeme.cut_covers _).2

/-- What a scan gives comes from the pieces at its front, and the end stands behind all of them if
no piece is bad. -/
theorem scan_placed (s : Source) : ∃ front n, front <+: s.stretches ∧ n ≤ s.bytes.length ∧
    s.scan = ⟨front.filterMap (Stretch.token? s.bytes) ++ [⟨.eof, .point (.ofByte s.bytes n)⟩],
      front.filterMap (Stretch.problem? s.bytes)⟩ ∧
    (s.scan.problems = [] → n = s.bytes.length) := by
  obtain ⟨front, n, hfront, hn, hscan, hend⟩ :=
    Scan.ofLexemes_placed Report.capacity (Lexeme.cut_covers s.text.toList).2 s.covers
  refine ⟨front, n, hfront, hn, hscan, fun h => ?_⟩
  exact hend (by decide) (Scan.ofLexemes_problems_eq_nil.mp h)

/-- The characters from one line feed, or the start, to the next, or the end. -/
structure IsLine (text : List Char) (number : Nat) (line : List Char) : Prop where
  inline : '\n' ∉ line
  between : ∃ before after, text = before ++ line ++ after ∧ number = 1 + before.count '\n' ∧
    (before = [] ∨ ∃ u, before = u ++ ['\n']) ∧ (after = [] ∨ ∃ u, after = '\n' :: u)

theorem length_splitLines (t : List Char) : (splitLines t).length = 1 + t.count '\n' := by
  fun_induction splitLines t <;> grind

theorem exists_splitLines_inline {c : Char} (hc : c ≠ '\n') (rest : List Char) :
    ∃ line lines, splitLines rest = line :: lines ∧
      splitLines (c :: rest) = (c :: line) :: lines := by
  have hne : splitLines rest ≠ [] := List.ne_nil_of_length_pos (by rw [length_splitLines]; omega)
  obtain ⟨line, lines, hl⟩ := List.exists_cons_of_ne_nil hne
  exact ⟨line, lines, hl, by rw [splitLines, if_neg hc, hl]⟩

theorem isLine_of_splitLines {t line : List Char} {n : Nat} (h : (splitLines t)[n]? = some line) :
    IsLine t (n + 1) line := by
  induction t generalizing n line with
  | nil =>
    obtain ⟨rfl, rfl⟩ : n = 0 ∧ [] = line := by
      cases n <;> simp_all [splitLines]
    exact ⟨List.not_mem_nil, [], [], rfl, rfl, .inl rfl, .inl rfl⟩
  | cons c rest ih =>
    by_cases hc : c = '\n'
    · subst c
      cases n with
      | zero =>
        obtain rfl : [] = line := Option.some.inj h
        exact ⟨List.not_mem_nil, [], _, rfl, rfl, .inl rfl, .inr ⟨rest, rfl⟩⟩
      | succ n =>
        obtain ⟨hi, before, after, rfl, hn, hbefore, hafter⟩ := ih h
        refine ⟨hi, '\n' :: before, after, rfl, ?_, .inr ?_, hafter⟩
        · rw [hn, List.count_cons_self, Nat.add_assoc]
        rcases hbefore with rfl | ⟨u, rfl⟩
        · exact ⟨[], rfl⟩
        · exact ⟨'\n' :: u, rfl⟩
    · obtain ⟨first, lines, hl, hs⟩ := exists_splitLines_inline hc rest
      rw [hs] at h
      rw [hl] at ih
      cases n with
      | zero =>
        -- The character joins the first line, before which there is nothing.
        obtain rfl : c :: first = line := Option.some.inj h
        obtain ⟨hi, before, after, rfl, hn, hbefore, hafter⟩ := @ih first 0 rfl
        have hnil : before = [] := by
          rcases hbefore with rfl | ⟨u, rfl⟩
          · rfl
          · simp at hn
        subst hnil
        exact ⟨by simp [hi, Ne.symm hc], [], after, rfl, rfl, .inl rfl, hafter⟩
      | succ n =>
        obtain ⟨hi, before, after, rfl, hn, hbefore, hafter⟩ := @ih line (n + 1) h
        refine ⟨hi, c :: before, after, rfl, by rw [hn, List.count_cons_of_ne hc], .inr ?_, hafter⟩
        rcases hbefore with rfl | ⟨u, rfl⟩
        · simp at hn
        · exact ⟨c :: u, rfl⟩

theorem count_newline (t : List Char) : (utf8 t).count '\n'.toUInt8 = t.count '\n' := by
  induction t with
  | nil => rfl
  | cons c rest ih =>
    by_cases hc : c = '\n'
    · rw [hc, utf8_ascii_cons (by decide), List.count_cons_self, List.count_cons_self, ih]
    · have hb : (String.utf8EncodeChar c).count '\n'.toUInt8 = 0 :=
        List.count_eq_zero.mpr fun h => ne_of_mem_encode (by decide) hc _ h rfl
      rw [utf8_cons, List.count_append, hb, List.count_cons_of_ne hc, ih, Nat.zero_add]

/-- All carriage returns at the end go, and nothing else. -/
theorem stripReturns_eq (line : List Char) :
    (∃ n, line = stripReturns line ++ List.replicate n '\r') ∧
      ∀ u, stripReturns line ≠ u ++ ['\r'] := by
  constructor
  · refine ⟨(line.reverse.takeWhile (· == '\r')).length, ?_⟩
    have hr : (line.reverse.takeWhile (· == '\r')).reverse =
        List.replicate (line.reverse.takeWhile (· == '\r')).length '\r' := by
      rw [List.eq_replicate_iff, List.length_reverse]
      refine ⟨rfl, fun c hc => ?_⟩
      have hc := List.mem_takeWhile_imp (List.mem_reverse.mp hc)
      exact beq_iff_eq.mp hc
    rw [← hr, stripReturns, ← List.reverse_append, List.takeWhile_append_dropWhile,
      List.reverse_reverse]
  · intro u hu
    have hd : line.reverse.dropWhile (· == '\r') = '\r' :: u.reverse := by
      rw [← List.reverse_reverse (line.reverse.dropWhile _)]
      exact (congrArg List.reverse hu).trans (List.reverse_concat' u '\r')
    have hn := List.head?_dropWhile_not (· == '\r') line.reverse
    rw [hd] at hn
    cases hn

/-- The line of a byte is there. -/
theorem line?_ofByte (s : Source) (i : Nat) : ∃ line,
    IsLine s.text.toList (Position.ofByte s.bytes i).line line ∧
    s.line? (Position.ofByte s.bytes i).line = some (String.ofList (stripReturns line)) := by
  let n := (s.bytes.take i).count '\n'.toUInt8
  have hn : (Position.ofByte s.bytes i).line = n + 1 := Nat.add_comm 1 n
  have hlt : n < s.lines.length := by
    have hle := (s.bytes.take_sublist i).count_le '\n'.toUInt8
    have hc : s.bytes.count '\n'.toUInt8 = s.text.toList.count '\n' := by
      rw [bytes_eq, count_newline]
    rw [lines, length_splitLines]
    omega
  obtain ⟨line, hl⟩ : ∃ line, s.lines[n]? = some line := ⟨_, List.getElem?_eq_getElem hlt⟩
  refine ⟨line, ?_, ?_⟩
  · rw [hn]
    exact isLine_of_splitLines hl
  · rw [hn, line?, hl]
    rfl

end Source

end Lisplet
