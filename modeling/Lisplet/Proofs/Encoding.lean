import Mathlib.Data.List.TakeWhile
import Mathlib.Tactic.Common
import Lisplet.Lexeme

/-! The bytes of a text. A character of ASCII is one byte, and all bytes of another character lie
beyond ASCII, so what is decided character by character can be decided byte by byte. -/

namespace Lisplet

namespace Text

/-- The bytes of some characters. -/
def utf8 (t : List Char) : List UInt8 := t.flatMap String.utf8EncodeChar

theorem utf8_toList (s : String) : utf8 s.toList = s.toUTF8.data.toList := by
  rw [String.toUTF8_eq_toByteArray, ← String.utf8Encode_toList, List.utf8Encode,
    List.toList_data_toByteArray, utf8]

theorem utf8_cons (c : Char) (t : List Char) :
    utf8 (c :: t) = String.utf8EncodeChar c ++ utf8 t := List.flatMap_cons

theorem utf8_append (s t : List Char) : utf8 (s ++ t) = utf8 s ++ utf8 t := List.flatMap_append

section

variable {c d : Char} {b : UInt8} {t rest : List Char} {r : List UInt8}

theorem encode_of_ascii (h : c.toNat < 0x80) : String.utf8EncodeChar c = [c.toUInt8] := by
  have hv : c.val.toNat ≤ 0x7f := Nat.le_of_lt_succ h
  rw [String.utf8EncodeChar, if_pos hv]
  rfl

theorem le_of_mem_encode (h : 0x80 ≤ c.toNat) : ∀ b ∈ String.utf8EncodeChar c, 0x80 ≤ b.toNat := by
  have hv : ¬c.val.toNat ≤ 0x7f := Nat.not_le.mpr h
  rw [String.utf8EncodeChar, if_neg hv]
  split_ifs <;> simp only [List.forall_mem_cons, UInt8.toNat_ofNat', List.not_mem_nil,
    false_implies, implies_true, and_true] <;> omega

theorem toNat_toUInt8 (h : c.toNat < 0x80) : c.toUInt8.toNat = c.toNat := by
  have hm : c.toUInt8.toNat = c.toNat % 2 ^ 8 := UInt32.toNat_toUInt8 c.val
  omega

theorem toUInt8_inj (hc : c.toNat < 0x80) (hd : d.toNat < 0x80) (h : c.toUInt8 = d.toUInt8) :
    c = d := by
  apply Char.toNat_inj.mp
  rw [← toNat_toUInt8 hc, ← toNat_toUInt8 hd, h]

theorem utf8_ascii_cons (hd : d.toNat < 0x80) (t : List Char) :
    utf8 (d :: t) = d.toUInt8 :: utf8 t := by
  rw [utf8_cons, encode_of_ascii hd, List.singleton_append]

/-- A byte of ASCII is a character. -/
theorem utf8_eq_cons (hd : d.toNat < 0x80) :
    utf8 t = d.toUInt8 :: r ↔ ∃ rest, t = d :: rest ∧ r = utf8 rest := by
  constructor
  · intro h
    cases t with
    | nil => cases h
    | cons c rest =>
      by_cases hc : c.toNat < 0x80
      · rw [utf8_ascii_cons hc] at h
        obtain ⟨hb, hr⟩ := List.cons.inj h
        exact ⟨rest, by rw [toUInt8_inj hc hd hb], hr.symm⟩
      · obtain ⟨b, bs, hb⟩ := List.exists_cons_of_ne_nil (String.utf8EncodeChar_ne_nil (c := c))
        have hhigh := le_of_mem_encode (Nat.not_lt.mp hc) b (by simp [hb])
        rw [utf8_cons, hb, List.cons_append] at h
        rw [(List.cons.inj h).1, toNat_toUInt8 hd] at hhigh
        omega
  · rintro ⟨rest, rfl, rfl⟩
    exact utf8_ascii_cons hd rest

theorem isPrefix_of_utf8 {s : List Char} (h : utf8 s <+: utf8 t) : s <+: t := by
  obtain ⟨r, hr⟩ := h
  refine List.isPrefix_of_utf8Encode_append_eq_utf8Encode r.toByteArray ?_
  rw [List.utf8Encode, List.utf8Encode, ← List.toByteArray_append]
  exact congrArg List.toByteArray hr

theorem utf8_isPrefix {s : List Char} (h : s <+: t) : utf8 s <+: utf8 t := by
  obtain ⟨rest, rfl⟩ := h
  rw [utf8_append]
  exact List.prefix_append _ _

theorem utf8_inj {s : List Char} : utf8 s = utf8 t ↔ s = t := by
  constructor
  · intro h
    have hst : s <+: t := isPrefix_of_utf8 (h ▸ List.prefix_rfl)
    have hts : t <+: s := isPrefix_of_utf8 (h ▸ List.prefix_rfl)
    exact hst.eq_of_length_le hts.length_le
  · exact congrArg utf8

end

/-- Every byte of a character decides whether the character belongs to a class. -/
def Decides (q : UInt8 → Bool) (p : Char → Bool) : Prop :=
  ∀ c, ∀ b ∈ String.utf8EncodeChar c, q b = p c

section

variable {q : UInt8 → Bool} {p : Char → Bool}

/-- It suffices to look at ASCII if all that lies beyond is treated alike. -/
theorem decides_of_ascii (high : Bool) (ha : ∀ n : Fin 0x80, q (Char.ofNat n).toUInt8 = p (Char.ofNat n))
    (hq : ∀ b, 0x80 ≤ b.toNat → q b = high) (hp : ∀ c, 0x80 ≤ c.toNat → p c = high) :
    Decides q p := by
  intro c b hb
  by_cases hc : c.toNat < 0x80
  · rw [encode_of_ascii hc, List.mem_singleton] at hb
    have := ha ⟨c.toNat, hc⟩
    rwa [Char.ofNat_toNat, ← hb] at this
  · have hc := Nat.not_lt.mp hc
    rw [hq b (le_of_mem_encode hc b hb), hp c hc]

theorem decides_ne {d : Char} (hd : d.toNat < 0x80) : Decides (· != d.toUInt8) (· != d) := by
  intro c b hb
  rw [Bool.eq_iff_iff, bne_iff_ne, bne_iff_ne]
  apply not_congr
  by_cases hc : c.toNat < 0x80
  · rw [encode_of_ascii hc, List.mem_singleton] at hb
    rw [hb]
    exact ⟨toUInt8_inj hc hd, congrArg Char.toUInt8⟩
  · have hb := le_of_mem_encode (Nat.not_lt.mp hc) b hb
    constructor
    · rintro rfl
      rw [toNat_toUInt8 hd] at hb
      omega
    · rintro rfl
      exact (hc hd).elim

theorem Decides.takeWhile_utf8 (h : Decides q p) (t : List Char) :
    (utf8 t).takeWhile q = utf8 (t.takeWhile p) := by
  induction t with
  | nil => rfl
  | cons c rest ih =>
    have hb := h c
    rw [utf8_cons, List.takeWhile_cons]
    cases hp : p c with
    | true =>
      rw [hp] at hb
      rw [List.takeWhile_append_of_pos hb, ih]
      exact (utf8_cons c _).symm
    | false =>
      obtain ⟨b, bs, he⟩ := List.exists_cons_of_ne_nil (String.utf8EncodeChar_ne_nil (c := c))
      have hq : q b = false := by rw [hb b (by simp [he]), hp]
      rw [he, List.cons_append, List.takeWhile_cons_of_neg (by simp [hq])]
      rfl

/-- The longest run of bytes of a class is the longest run of its characters. -/
theorem Decides.run_iff (h : Decides q p) {w r : List UInt8} {t : List Char} (ht : w ++ r = utf8 t) :
    ((∀ b ∈ w, q b) ∧ ∀ b ∈ r.head?, ¬q b) ↔ w = utf8 (t.takeWhile p) := by
  rw [← h.takeWhile_utf8, ← ht]
  constructor
  · rintro ⟨hw, hr⟩
    have hn : r.takeWhile q = [] := by
      cases r with
      | nil => rfl
      | cons b bs => exact List.takeWhile_cons_of_neg (hr b rfl)
    rw [List.takeWhile_append_of_pos hw, hn, List.append_nil]
  · intro hw
    have hall : ∀ b ∈ w, q b := by
      rw [hw]
      exact fun b hb => List.mem_takeWhile_imp hb
    refine ⟨hall, ?_⟩
    rw [List.takeWhile_append_of_pos hall, List.self_eq_append_right] at hw
    intro b hb hq
    cases r with
    | nil => cases hb
    | cons b' bs =>
      cases hb
      rw [List.takeWhile_cons_of_pos hq] at hw
      cases hw

end

end Text

end Lisplet
