import Mathlib.Algebra.Group.Nat.Defs
import Mathlib.Tactic.Common
import Lisplet.Number.Binary

/-! The bits of a double. A double with a mantissa of 53 bits, or with the least exponent, is packed
and read back unchanged as long as its exponent is within the format, and otherwise packed as
infinity. -/

namespace Lisplet

namespace Rounding

open Float.Model Float.Model.UnpackedFloat

/-- The mantissa has 53 bits, unless the exponent is the least one. -/
structure Canonical (m : ℕ) (e : ℤ) : Prop where
  small : m < 2 ^ 53
  exponent : -1074 ≤ e
  normal : 2 ^ 52 ≤ m ∨ e = -1074

/-- A double from its sign, mantissa and exponent. -/
def parts (s : Sign) (m : ℕ) (e : ℤ) : UnpackedFloat :=
  if h : m = 0 then .zero s else .finite s m e (Nat.pos_of_ne_zero h)

theorem unpackSign_packComponents {s : Sign} {e : BitVec 11} {m : BitVec 52} :
    Sign.ofBitVec (unpackSign (packComponents .binary64 s e m)) = s := by
  change Sign.ofBitVec (((s.toBitVec ++ e) ++ m).extractLsb' 63 1) = s
  rw [BitVec.extractLsb'_append_eq_of_le (by omega), BitVec.extractLsb'_append_eq_of_le (by omega)]
  cases s <;> rfl

/-- The leading bit of a mantissa is not stored. -/
theorem toNat_one_append {m : Nat} (low : 2 ^ 52 ≤ m) (high : m < 2 ^ 53) :
    (1#1 ++ BitVec.ofNat 52 m).toNat = m := by
  have hone : (1#1).toNat = 1 := rfl
  rw [BitVec.toNat_append, ← Nat.shiftLeft_add_eq_or_of_lt (BitVec.ofNat 52 m).isLt,
    BitVec.toNat_ofNat m, Nat.shiftLeft_eq, hone]
  omega

def sign (negative : Bool) : Sign := if negative then .negative else .positive

theorem toNat_packComponents (negative : Bool) (e : BitVec 11) (m : BitVec 52) :
    (packComponents .binary64 (sign negative) e m).toNat =
      negative.toNat * 2 ^ 63 + e.toNat * 2 ^ 52 + m.toNat := by
  have hsign : (sign negative).toBitVec.toNat = negative.toNat := by cases negative <;> rfl
  change (((sign negative).toBitVec ++ e) ++ m).toNat = _
  rw [BitVec.toNat_append, ← Nat.shiftLeft_add_eq_or_of_lt m.isLt, BitVec.toNat_append,
    ← Nat.shiftLeft_add_eq_or_of_lt e.isLt, Nat.shiftLeft_eq, Nat.shiftLeft_eq, hsign]
  omega

/-- The three fields of the bits. -/
theorem ofFloat_of_bits {x : Float} {negative : Bool} {field fraction : ℕ} (hfield : field < 2 ^ 11)
    (hfraction : fraction < 2 ^ 52)
    (h : x.toBits.toNat = negative.toNat * 2 ^ 63 + field * 2 ^ 52 + fraction) :
    Binary.ofFloat x =
      if field = 2047 then (if fraction = 0 then .infinite negative else .nan)
      else if field = 0 then .finite negative fraction (-1074)
      else .finite negative (2 ^ 52 + fraction) (field - 1075) := by
  have hnegative : decide (Binary.twoTo 63 ≤ x.toBits.toNat) = negative := by
    change decide (2 ^ 63 ≤ _) = _
    cases negative with
    | false =>
      rw [Bool.toNat_false] at h
      exact decide_eq_false (by omega)
    | true =>
      rw [Bool.toNat_true] at h
      exact decide_eq_true (by omega)
  have hexponent : x.toBits.toNat / Binary.twoTo 52 % Binary.twoTo 11 = field := by
    change _ / 2 ^ 52 % 2 ^ 11 = _
    omega
  have hrest : x.toBits.toNat % Binary.twoTo 52 = fraction := by
    change _ % 2 ^ 52 = _
    omega
  simp only [Binary.ofFloat, hnegative, hexponent, hrest]
  rfl

theorem ofFloat_packComponents {u : UnpackedFloat} {negative : Bool} {e : BitVec 11} {m : BitVec 52}
    (h : UnpackedFloat.pack .binary64 u = packComponents .binary64 (sign negative) e m) :
    Binary.ofFloat (.ofModel (Float.Model.pack u)) =
      if e.toNat = 2047 then (if m.toNat = 0 then .infinite negative else .nan)
      else if e.toNat = 0 then .finite negative m.toNat (-1074)
      else .finite negative (2 ^ 52 + m.toNat) (e.toNat - 1075) := by
  refine ofFloat_of_bits e.isLt m.isLt ?_
  change (UnpackedFloat.pack .binary64 u).toNat = _
  rw [h, toNat_packComponents]

/-- Too large an exponent is packed as infinity; without the leading bit a number is subnormal. -/
theorem pack_parts (s : Sign) {m : ℕ} {e : ℤ} (h0 : m ≠ 0) (hsmall : m < 2 ^ 53) :
    UnpackedFloat.pack .binary64 (parts s m e) =
      if 971 < e then packComponents .binary64 s (-1#11) 0#52
      else if 2 ^ 52 ≤ m then
        packComponents .binary64 s (BitVec.ofNat 11 (e + 1075).toNat) (BitVec.ofNat 52 m)
      else packComponents .binary64 s 0#11 (BitVec.ofNat 52 m) := by
  have hbias : (e + (1023 : ℕ) + (52 : ℕ)).toNat = (e + 1075).toNat := by omega
  have hinfinite : 2 ^ 11 ≤ (e + 1075).toNat + 1 ↔ 971 < e := by omega
  have hnormal : m.log2 + 1 = 53 ↔ 2 ^ 52 ≤ m := by
    have hlog : m.log2 < 53 := (Nat.log2_lt h0).mpr hsmall
    rw [← Nat.le_log2 h0]
    omega
  rw [parts, dif_neg h0]
  change (if 2 ^ 11 ≤ (e + (1023 : ℕ) + (52 : ℕ)).toNat + 1 then packedInfinity .binary64 s
    else if m.log2 + 1 = 53 then
      packComponents .binary64 s (BitVec.ofNat 11 (e + (1023 : ℕ) + (52 : ℕ)).toNat) (BitVec.ofNat 52 m)
    else packComponents .binary64 s 0#11 (BitVec.ofNat 52 m)) = _
  simp only [hbias, hinfinite, hnormal]
  rfl

theorem pack_congr {u u' : UnpackedFloat}
    (h : UnpackedFloat.pack .binary64 u = UnpackedFloat.pack .binary64 u') :
    Float.Model.pack u = Float.Model.pack u' := by
  have hmodel {a b : UInt64} (hab : a = b) (ha : Format.binary64.Valid a.toBitVec)
      (hb : Format.binary64.Valid b.toBitVec) : Float.Model.mk a ha = Float.Model.mk b hb := by
    subst hab
    rfl
  exact hmodel (congrArg UInt64.ofBitVec h) _ _

theorem Canonical.pack_infinite {m : ℕ} {e : ℤ} (h : Canonical m e) (he : 971 < e) (s : Sign) :
    Float.Model.pack (parts s m e) = Float.Model.pack (.infinity s) := by
  have hm : 2 ^ 52 ≤ m := h.normal.resolve_right (by omega)
  apply pack_congr
  rw [pack_parts s (by omega) h.small, if_pos he]
  rfl

theorem toNat_field {e : ℤ} (hlow : -1074 ≤ e) (hhigh : e ≤ 971) :
    (BitVec.ofNat 11 (e + 1075).toNat).toNat = (e + 1075).toNat := by
  rw [BitVec.toNat_ofNat]
  exact Nat.mod_eq_of_lt (by omega)

theorem toNat_fraction {m : ℕ} (h : m < 2 ^ 52) : (BitVec.ofNat 52 m).toNat = m := by
  rw [BitVec.toNat_ofNat, Nat.mod_eq_of_lt h]

/-- A double is taken apart into the mantissa and the exponent it was made of. -/
theorem Canonical.ofFloat_pack {m : ℕ} {e : ℤ} (h : Canonical m e) (negative : Bool) :
    Binary.ofFloat (.ofModel (Float.Model.pack (parts (sign negative) m e))) =
      if e ≤ 971 then .finite negative m e else .infinite negative := by
  by_cases hbig : 971 < e
  · rw [h.pack_infinite hbig, if_neg (by omega)]
    cases negative <;> rfl
  obtain ⟨hsmall, hleast, hnormal⟩ := h
  rw [if_pos (by omega)]
  by_cases h0 : m = 0
  · obtain rfl : e = -1074 := hnormal.resolve_left (by omega)
    rw [h0]
    cases negative <;> rfl
  have hpack := pack_parts (sign negative) (e := e) h0 hsmall
  rw [if_neg hbig] at hpack
  by_cases hm : 2 ^ 52 ≤ m
  · have hmantissa : (BitVec.ofNat 52 m).toNat = m - 2 ^ 52 := by
      rw [BitVec.toNat_ofNat]
      omega
    have hback : ((e + 1075).toNat : ℤ) - 1075 = e := by omega
    rw [if_pos hm] at hpack
    rw [ofFloat_packComponents hpack, toNat_field hleast (by omega), hmantissa,
      if_neg (by omega), if_neg (by omega), Nat.add_sub_cancel' hm, hback]
  · obtain rfl : e = -1074 := hnormal.resolve_left hm
    rw [if_neg hm] at hpack
    rw [ofFloat_packComponents hpack, if_neg (by decide), if_pos (by decide),
      toNat_fraction (by omega)]

theorem finite_congr {s s' : Sign} {m m' : ℕ} {e e' : ℤ} {h : 0 < m} {h' : 0 < m'} (hs : s = s')
    (hm : m = m') (he : e = e') : UnpackedFloat.finite s m e h = .finite s' m' e' h' := by
  subst hs hm he
  rfl

theorem unpack_normal (s : Sign) {m : ℕ} {e : ℤ} (hm : 0 < m) (low : 2 ^ 52 ≤ m) (high : m < 2 ^ 53)
    (hleast : -1074 ≤ e) (hgreatest : e ≤ 971) :
    UnpackedFloat.unpack .binary64
      (packComponents .binary64 s (BitVec.ofNat 11 (e + 1075).toNat) (BitVec.ofNat 52 m)) =
      .finite s m e hm := by
  have hfield := toNat_field hleast hgreatest
  have hexponent : ((BitVec.ofNat 11 (e + 1075).toNat).toNat : ℤ) - ((1023 : ℕ) + (52 : ℕ)) = e := by
    rw [hfield]
    omega
  -- The exponents of all ones and all zeros are kept for other numbers.
  have hne {x : BitVec 11} (hx : x.toNat = 0 ∨ x.toNat = 2047) :
      BitVec.ofNat 11 (e + 1075).toNat ≠ x := by
    rintro rfl
    omega
  generalize hb : packComponents .binary64 s _ _ = b
  have hsign : Sign.ofBitVec (unpackSign b) = s := hb ▸ unpackSign_packComponents
  have he : unpackExponent b = _ := hb ▸ unpackExponent_packComponents
  have hmantissa : unpackMantissa b = _ := hb ▸ unpackMantissa_packComponents
  change (if unpackExponent b = -1#11 then _ else if unpackExponent b = 0#11 then _
    else UnpackedFloat.finite _ _ _ _) = _
  rw [if_neg (by rw [he]; exact hne (Or.inr rfl)), if_neg (by rw [he]; exact hne (Or.inl rfl))]
  refine finite_congr hsign ?_ ?_
  · rw [hmantissa]
    exact toNat_one_append low high
  · rw [he]
    exact hexponent

theorem unpack_subnormal (s : Sign) {m : ℕ} (hm : 0 < m) (high : m < 2 ^ 52) :
    UnpackedFloat.unpack .binary64 (packComponents .binary64 s 0#11 (BitVec.ofNat 52 m)) =
      .finite s m (-1074) hm := by
  have hfraction := toNat_fraction high
  have hne : BitVec.ofNat 52 m ≠ 0#52 := by
    intro hzero
    rw [hzero, BitVec.toNat_zero] at hfraction
    omega
  generalize hb : packComponents .binary64 s _ _ = b
  have hsign : Sign.ofBitVec (unpackSign b) = s := hb ▸ unpackSign_packComponents
  have he : unpackExponent b = 0#11 := hb ▸ unpackExponent_packComponents
  have hmantissa : unpackMantissa b = _ := hb ▸ unpackMantissa_packComponents
  change (if unpackExponent b = -1#11 then _ else if unpackExponent b = 0#11 then
    (if h : unpackMantissa b = 0#52 then _ else UnpackedFloat.finite _ _ _ _) else _) = _
  rw [if_neg (by rw [he]; decide), if_pos he, dif_neg (by rw [hmantissa]; exact hne)]
  refine finite_congr hsign ?_ ?_
  · rw [hmantissa]
    exact hfraction
  · rw [he]
    rfl

/-- Within the format the bits are read back as they were. -/
theorem Canonical.unpack_pack {m : ℕ} {e : ℤ} (h : Canonical m e) (he : e ≤ 971) (s : Sign) :
    (Float.Model.pack (parts s m e)).unpack = parts s m e := by
  obtain ⟨hsmall, hleast, hnormal⟩ := h
  by_cases h0 : m = 0
  · rw [parts, dif_pos h0]
    cases s <;> rfl
  change UnpackedFloat.unpack .binary64 (UnpackedFloat.pack .binary64 (parts s m e)) = _
  rw [pack_parts s h0 hsmall, if_neg (by omega), parts, dif_neg h0]
  by_cases hm : 2 ^ 52 ≤ m
  · rw [if_pos hm]
    exact unpack_normal s _ hm hsmall hleast he
  · obtain rfl : e = -1074 := hnormal.resolve_left hm
    rw [if_neg hm]
    exact unpack_subnormal s _ (by omega)

end Rounding

end Lisplet
