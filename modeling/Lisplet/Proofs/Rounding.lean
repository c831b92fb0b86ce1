import Mathlib.Algebra.Order.Ring.Nat
import Mathlib.Tactic.Common
import Lisplet.Value.Equality
import Lisplet.Proofs.Packing

/-! The doubles of integers. Converting an integer keeps 53 significant bits: the rest is rounded to
the nearest number that has no more, and a half goes to the even one. Doubles of integers are in the
order of these rounded numbers. -/

namespace Lisplet

namespace Rounding

open Float.Model Float.Model.UnpackedFloat

/-- The quotient by a power of two, rounded to the nearest whole number; a half goes to the even
one. -/
def quotient (n k : Nat) : Nat :=
  if 2 * (n % 2 ^ k) < 2 ^ k then n / 2 ^ k
  else if 2 * (n % 2 ^ k) = 2 ^ k then n / 2 ^ k + n / 2 ^ k % 2
  else n / 2 ^ k + 1

/-- How many bits a number has beyond 53. -/
def excess (n : Nat) : Nat := n.log2 - 52

/-- The nearest number with 53 significant bits. -/
def nearestNat (n : Nat) : Nat := quotient n (excess n) * 2 ^ excess n

/-- The same for integers of either sign. -/
def nearest (n : Int) : Int := n.sign * nearestNat n.natAbs

theorem quotient_zero (n : Nat) : quotient n 0 = n := by
  simp [quotient, Nat.mod_one]

theorem quotient_bounds (n k : Nat) : n / 2 ^ k ≤ quotient n k ∧ quotient n k ≤ n / 2 ^ k + 1 := by
  unfold quotient
  split_ifs <;> omega

/-- Bits that are all zero do not count. -/
theorem quotient_mul (n k j : Nat) : quotient (n * 2 ^ j) (k + j) = quotient n k := by
  have hj : 0 < 2 ^ j := Nat.two_pow_pos j
  have hlt : 2 * (n % 2 ^ k * 2 ^ j) < 2 ^ k * 2 ^ j ↔ 2 * (n % 2 ^ k) < 2 ^ k := by
    rw [← Nat.mul_assoc, Nat.mul_lt_mul_right hj]
  have heq : 2 * (n % 2 ^ k * 2 ^ j) = 2 ^ k * 2 ^ j ↔ 2 * (n % 2 ^ k) = 2 ^ k := by
    rw [← Nat.mul_assoc, Nat.mul_left_inj (Nat.ne_of_gt hj)]
  simp only [quotient, Nat.pow_add, Nat.mul_mod_mul_right, Nat.mul_div_mul_right _ _ hj, hlt, heq]

theorem quotient_mono {n m : Nat} (k : Nat) (h : n ≤ m) : quotient n k ≤ quotient m k := by
  have hq : n / 2 ^ k ≤ m / 2 ^ k := Nat.div_le_div_right h
  have hn := quotient_bounds n k
  have hm := quotient_bounds m k
  rcases Nat.lt_or_eq_of_le hq with hlt | heq
  · omega
  · -- The quotients agree, so the remainders are in order.
    have hr : n % 2 ^ k ≤ m % 2 ^ k := by
      have hdn := Nat.div_add_mod n (2 ^ k)
      have hdm := Nat.div_add_mod m (2 ^ k)
      rw [heq] at hdn
      omega
    unfold quotient
    rw [heq]
    split_ifs <;> omega

/-- Rounding moves a number by half a unit at most. -/
theorem quotient_near (n k : Nat) :
    2 * n ≤ 2 * (quotient n k * 2 ^ k) + 2 ^ k ∧ 2 * (quotient n k * 2 ^ k) ≤ 2 * n + 2 ^ k := by
  have hd : n / 2 ^ k * 2 ^ k + n % 2 ^ k = n := Nat.div_add_mod' n (2 ^ k)
  have hr : n % 2 ^ k < 2 ^ k := Nat.mod_lt _ (Nat.two_pow_pos k)
  have hcases : quotient n k = n / 2 ^ k ∧ 2 * (n % 2 ^ k) ≤ 2 ^ k ∨
      quotient n k = n / 2 ^ k + 1 ∧ 2 ^ k ≤ 2 * (n % 2 ^ k) := by
    unfold quotient
    split_ifs <;> omega
  rcases hcases with ⟨hq, hle⟩ | ⟨hq, hle⟩
  · rw [hq]
    omega
  · rw [hq, Nat.add_mul, Nat.one_mul]
    omega

theorem quotient_le_of_lt {n k : Nat} (h : n < 2 ^ (53 + k)) : quotient n k ≤ 2 ^ 53 := by
  have hd : n / 2 ^ k < 2 ^ 53 := by
    rw [Nat.div_lt_iff_lt_mul (Nat.two_pow_pos k), ← Nat.pow_add]
    exact h
  have hq := quotient_bounds n k
  omega

theorem le_quotient_of_le {n k : Nat} (h : 2 ^ (52 + k) ≤ n) : 2 ^ 52 ≤ quotient n k := by
  have hd : 2 ^ 52 ≤ n / 2 ^ k := by
    rw [Nat.le_div_iff_mul_le (Nat.two_pow_pos k), ← Nat.pow_add]
    exact h
  exact Nat.le_trans hd (quotient_bounds n k).1

theorem log2_of_bounds {m : Nat} (low : 2 ^ 52 ≤ m) (high : m < 2 ^ 53) : m.log2 = 52 :=
  (Nat.log2_eq_iff (by omega)).mpr ⟨low, high⟩

/-- A number with `53 + k` bits keeps 53 of them, or gains one by a carry. -/
theorem quotient_of_log2 {n k : Nat} (h : n.log2 = 52 + k) :
    2 ^ 52 ≤ quotient n k ∧ quotient n k ≤ 2 ^ 53 := by
  have hn : n ≠ 0 := by
    rintro rfl
    rw [Nat.log2_zero] at h
    omega
  have hlow : 2 ^ (52 + k) ≤ n := (Nat.le_log2 hn).mp (Nat.le_of_eq h.symm)
  have hhigh : n < 2 ^ (53 + k) := (Nat.log2_lt hn).mp (by omega)
  exact ⟨le_quotient_of_le hlow, quotient_le_of_lt hhigh⟩

theorem lt_two_pow_excess (n : Nat) : n < 2 ^ (53 + excess n) := by
  refine Nat.lt_of_lt_of_le Nat.lt_log2_self (Nat.pow_le_pow_right (by decide) ?_)
  unfold excess
  omega

theorem excess_le {n k : Nat} (h : n < 2 ^ (53 + k)) : excess n ≤ k := by
  rcases Nat.eq_zero_or_pos n with rfl | hn
  · exact Nat.zero_le k
  · have hlog : n.log2 < 53 + k := (Nat.log2_lt (Nat.ne_of_gt hn)).mpr h
    unfold excess
    omega

theorem nearestNat_of_le {n : Nat} (h : n ≤ 2 ^ 53) : nearestNat n = n := by
  rcases Nat.lt_or_eq_of_le h with hlt | rfl
  · have he : excess n = 0 := Nat.le_zero.mp (excess_le hlt)
    rw [nearestNat, he, quotient_zero, Nat.pow_zero, Nat.mul_one]
  · decide

theorem nearestNat_mono {n m : Nat} (h : n ≤ m) : nearestNat n ≤ nearestNat m := by
  rcases Nat.eq_zero_or_pos n with rfl | hn
  · rw [nearestNat_of_le (Nat.zero_le _)]
    exact Nat.zero_le _
  have hm : m ≠ 0 := by omega
  have hlog : n.log2 ≤ m.log2 :=
    (Nat.le_log2 hm).mpr (Nat.le_trans (Nat.log2_self_le (Nat.ne_of_gt hn)) h)
  have hle : excess n ≤ excess m := Nat.sub_le_sub_right hlog 52
  unfold nearestNat
  rcases Nat.lt_or_eq_of_le hle with hlt | heq
  · -- A power of two stands between the two results.
    have hlow : 2 ^ (52 + excess m) ≤ m := by
      refine Nat.le_trans (Nat.pow_le_pow_right (by decide) ?_) (Nat.log2_self_le hm)
      unfold excess at hlt ⊢
      omega
    calc quotient n (excess n) * 2 ^ excess n
        ≤ 2 ^ 53 * 2 ^ excess n := Nat.mul_le_mul_right _ (quotient_le_of_lt (lt_two_pow_excess n))
      _ = 2 ^ (53 + excess n) := (Nat.pow_add ..).symm
      _ ≤ 2 ^ (52 + excess m) := Nat.pow_le_pow_right (by decide) (by omega)
      _ = 2 ^ 52 * 2 ^ excess m := Nat.pow_add ..
      _ ≤ quotient m (excess m) * 2 ^ excess m := Nat.mul_le_mul_right _ (le_quotient_of_le hlow)
  · rw [heq]
    exact Nat.mul_le_mul_right _ (quotient_mono _ h)

/-- The magnitude of an integer of 64 bits is moved by 512 at most. -/
theorem nearestNat_near {n : Nat} (h : n ≤ 2 ^ 63) :
    n ≤ nearestNat n + 512 ∧ nearestNat n ≤ n + 512 := by
  rcases Nat.lt_or_eq_of_le h with hlt | rfl
  · have hunit : 2 ^ excess n ≤ 2 ^ 10 := Nat.pow_le_pow_right (by decide) (excess_le hlt)
    have hq := quotient_near n (excess n)
    unfold nearestNat
    omega
  · decide

theorem nearest_natCast (n : Nat) : nearest n = nearestNat n := by
  rcases Nat.eq_zero_or_pos n with rfl | hn
  · rfl
  · rw [nearest, Int.sign_eq_one_of_pos (by omega), Int.one_mul, Int.natAbs_natCast]

theorem nearest_neg (n : Int) : nearest (-n) = -nearest n := by
  rw [nearest, nearest, Int.sign_neg, Int.natAbs_neg, Int.neg_mul]

theorem nearest_mono {a b : Int} (h : a ≤ b) : nearest a ≤ nearest b := by
  obtain ⟨m, rfl | rfl⟩ := a.eq_nat_or_neg <;> obtain ⟨n, rfl | rfl⟩ := b.eq_nat_or_neg <;>
    simp only [nearest_neg, nearest_natCast]
  · have hm := nearestNat_mono (Int.ofNat_le.mp h)
    omega
  · obtain ⟨rfl, rfl⟩ : m = 0 ∧ n = 0 := by omega
    decide
  · omega
  · have hm : nearestNat n ≤ nearestNat m := nearestNat_mono (by omega)
    omega

theorem nearest_of_natAbs_le {n : Int} (h : n.natAbs ≤ 2 ^ 53) : nearest n = n := by
  rw [nearest, nearestNat_of_le h, Int.sign_mul_natAbs]

theorem nearest_near {n : Int} (h : n.natAbs ≤ 2 ^ 63) :
    n ≤ nearest n + 512 ∧ nearest n ≤ n + 512 := by
  obtain ⟨m, rfl | rfl⟩ := n.eq_nat_or_neg <;> simp only [nearest_neg, nearest_natCast]
  all_goals
    have hm : m ≤ 2 ^ 63 := by omega
    have hnear := nearestNat_near hm
    omega

/-- The bits that a shift by `k` keeps of a number, and what it remembers of the others. -/
structure Tells (em : ExtendedMantissa) (n k : Nat) : Prop where
  mantissa : em.mantissa = n / 2 ^ k
  round : em.roundBit = true ↔ 2 ^ k ≤ 2 * (n % 2 ^ k)
  sticky : em.stickyBit = true ↔ n % 2 ^ k ≠ 0 ∧ 2 * (n % 2 ^ k) ≠ 2 ^ k

theorem Tells.roundedMantissa {em : ExtendedMantissa} {n k : Nat} (h : Tells em n k) :
    em.roundedMantissa = quotient n k := by
  obtain ⟨mantissa, round, sticky⟩ := em
  obtain ⟨rfl, hround, hsticky⟩ := h
  have hk : 0 < 2 ^ k := Nat.two_pow_pos k
  rw [ExtendedMantissa.roundedMantissa, quotient]
  cases round <;> cases sticky <;>
    simp only [ExtendedMantissa.accuracy, Accuracy.roundToNearestEven, Bool.false_eq_true, false_iff,
      true_iff] at hround hsticky ⊢ <;>
    split_ifs <;> omega

theorem Tells.shiftRightOne {em : ExtendedMantissa} {n k : Nat} (h : Tells em n k) :
    Tells em.shiftRightOne n (k + 1) := by
  have hr : n % 2 ^ k < 2 ^ k := Nat.mod_lt _ (Nat.two_pow_pos k)
  have hmod : n % 2 ^ (k + 1) = n % 2 ^ k + 2 ^ k * (n / 2 ^ k % 2) := by
    rw [Nat.pow_succ, Nat.mod_mul]
  refine ⟨?_, ?_, ?_⟩
  · simp only [ExtendedMantissa.shiftRightOne, h.mantissa, Nat.div_div_eq_div_mul, Nat.pow_succ]
  · -- The lowest bit of the quotient becomes the round bit.
    simp only [ExtendedMantissa.shiftRightOne, h.mantissa, bne_iff_ne, hmod]
    rw [Nat.pow_succ]
    rcases Nat.mod_two_eq_zero_or_one (n / 2 ^ k) with hbit | hbit <;> rw [hbit] <;> omega
  · simp only [ExtendedMantissa.shiftRightOne, Bool.or_eq_true, h.round, h.sticky, hmod]
    rw [Nat.pow_succ]
    rcases Nat.mod_two_eq_zero_or_one (n / 2 ^ k) with hbit | hbit <;> rw [hbit] <;> omega

theorem tells_shiftRight (n k : Nat) : Tells ((⟨n, false, false⟩ : ExtendedMantissa) >>> k) n k := by
  change Tells (k.repeat ExtendedMantissa.shiftRightOne ⟨n, false, false⟩) n k
  induction k with
  | zero => constructor <;> simp [Nat.repeat, Nat.mod_one]
  | succ k ih => exact ih.shiftRightOne

/-- The first shift of a number with `53 + k` bits drops `k` of them. -/
theorem shiftToTargetExponent_eq {n k : Nat} {e : Int} (hn : n.log2 = 52 + k) (he : -1074 ≤ e + k) :
    shiftToTargetExponent .binary64 n e .exact =
      ((⟨n, false, false⟩ : ExtendedMantissa) >>> k, e + k) := by
  have ht : Format.binary64.targetExponent (totalExponent n e) = e + k := by
    change max ((n.log2 : Int) + 1 + e - (53 : Nat)) (-1074) = e + k
    omega
  have hk : (e + k - e).toNat = k := by omega
  simp only [shiftToTargetExponent, shiftToExponent, ht, hk, ExtendedMantissa.ofMantissaAndAccuracy]

/-- The double has this integer as its value, and 53 bits in its mantissa unless it is zero. -/
inductive Holds : UnpackedFloat → Int → Prop
  | zero (s : Sign) : Holds (.zero s) 0
  | finite (s : Sign) {m k v : Nat} {e : Int} (h : 0 < m) (low : 2 ^ 52 ≤ m) (high : m < 2 ^ 53)
      (exponent : e = (k : Int) - 52) (value : v * 2 ^ 52 = m * 2 ^ k) (small : v ≤ 2 ^ 63) :
      Holds (.finite s m e h) (s.apply v)

theorem exponent_le {m k v : Nat} (low : 2 ^ 52 ≤ m) (value : v * 2 ^ 52 = m * 2 ^ k)
    (small : v ≤ 2 ^ 63) : k ≤ 63 := by
  by_contra hk
  have hpow : 2 ^ 64 ≤ 2 ^ k := Nat.pow_le_pow_right (by decide) (by omega)
  have hle : 2 ^ 52 * 2 ^ 64 ≤ m * 2 ^ k := Nat.mul_le_mul low hpow
  omega

/-- A carry gives the one number of 54 bits that is possible, and it is even. -/
theorem exists_carry {q : Nat} (hlow : 2 ^ 52 ≤ q) (hhigh : q ≤ 2 ^ 53) :
    ∃ m c, c ≤ 1 ∧ q.log2 = 52 + c ∧ q = m * 2 ^ c ∧ 2 ^ 52 ≤ m ∧ m < 2 ^ 53 := by
  rcases Nat.lt_or_eq_of_le hhigh with hlt | rfl
  · exact ⟨q, 0, by decide, log2_of_bounds hlow hlt, (Nat.mul_one q).symm, hlow, hlt⟩
  · exact ⟨2 ^ 52, 1, by decide, Nat.log2_two_pow, by decide, Nat.le_refl _, by decide⟩

/-- Rounding shifts to 53 bits, and once more if that gave a carry. -/
theorem roundWithAccuracy_eq_parts (s : Sign) (n : Nat) (e : Int) (accuracy : Accuracy) :
    roundWithAccuracy .binary64 s n e accuracy =
      let first := shiftToTargetExponent .binary64 n e accuracy
      let last := shiftToTargetExponent .binary64 first.1.roundedMantissa first.2 .exact
      parts s last.1.mantissa last.2 := rfl

theorem holds_roundWithAccuracy (s : Sign) {n k j v : Nat} {e : Int} (hn : n.log2 = 52 + k)
    (he : e + k = (j : Int) - 52) (hv : v * 2 ^ 52 = quotient n k * 2 ^ j) (hs : v ≤ 2 ^ 63) :
    Holds (roundWithAccuracy .binary64 s n e .exact) (s.apply v) := by
  obtain ⟨hlow, hhigh⟩ := quotient_of_log2 hn
  obtain ⟨m, c, hc, hlog, hq, hm⟩ := exists_carry hlow hhigh
  have hfirst := shiftToTargetExponent_eq (e := e) hn (by omega)
  have hsecond := shiftToTargetExponent_eq (e := e + k) hlog (by omega)
  have hlast : ((⟨quotient n k, false, false⟩ : ExtendedMantissa) >>> c).mantissa = m := by
    rw [(tells_shiftRight _ _).mantissa, hq, Nat.mul_div_cancel _ (Nat.two_pow_pos c)]
  have hpos : 0 < m := by omega
  have hr : roundWithAccuracy .binary64 s n e .exact = parts s m (e + k + c) := by
    simp only [roundWithAccuracy_eq_parts, hfirst, (tells_shiftRight n k).roundedMantissa, hsecond,
      hlast]
  have hvalue : v * 2 ^ 52 = m * 2 ^ (c + j) := by
    rw [hv, hq, Nat.mul_assoc, Nat.pow_add]
  rw [hr, parts, dif_neg (Nat.ne_of_gt hpos)]
  exact .finite s hpos hm.1 hm.2 (by omega) hvalue hs

/-- The bits of such a double are read back as they were. -/
theorem Holds.unpack_pack {u : UnpackedFloat} {v : Int} (h : Holds u v) :
    (Float.Model.pack u).unpack = u := by
  cases h with
  | zero s => cases s <;> rfl
  | @finite s m k v e hm low high exponent value small =>
    have hk := exponent_le low value small
    have hcanonical : Canonical m e := ⟨high, by omega, Or.inl low⟩
    have hparts : parts s m e = .finite s m e hm := dif_neg (Nat.ne_of_gt hm)
    rw [← hparts]
    exact hcanonical.unpack_pack (by omega) s

theorem Holds.neg {u : UnpackedFloat} {v : Int} (h : Holds u v) : Holds u.neg (-v) := by
  cases h with
  | zero s => exact .zero (-s)
  | @finite s m k v e hm low high exponent value small =>
    have hs : -s.apply v = (-s).apply v := by
      cases s with
      | negative => exact Int.neg_neg v
      | positive => rfl
    rw [hs]
    exact .finite (-s) hm low high exponent value small

/-- Mantissas of 53 bits compare after their exponents. -/
theorem scaled_lt {m m' : Nat} (k k' : Nat) (low : 2 ^ 52 ≤ m) (high : m < 2 ^ 53) (low' : 2 ^ 52 ≤ m')
    (high' : m' < 2 ^ 53) : m * 2 ^ k < m' * 2 ^ k' ↔ k < k' ∨ k = k' ∧ m < m' := by
  have above {m m' k k' : Nat} (high : m < 2 ^ 53) (low' : 2 ^ 52 ≤ m') (h : k < k') :
      m * 2 ^ k < m' * 2 ^ k' := by
    calc m * 2 ^ k < 2 ^ 53 * 2 ^ k := Nat.mul_lt_mul_of_pos_right high (Nat.two_pow_pos k)
      _ = 2 ^ 52 * 2 ^ (k + 1) := by rw [← Nat.pow_add, ← Nat.pow_add]; congr 1; omega
      _ ≤ 2 ^ 52 * 2 ^ k' := Nat.mul_le_mul_left _ (Nat.pow_le_pow_right (by decide) h)
      _ ≤ m' * 2 ^ k' := Nat.mul_le_mul_right _ low'
  rcases Nat.lt_trichotomy k k' with hlt | rfl | hgt
  · exact iff_of_true (above high low' hlt) (Or.inl hlt)
  · rw [Nat.mul_lt_mul_right (Nat.two_pow_pos k)]
    omega
  · have hother := above high' low hgt
    exact iff_of_false (by omega) (by omega)

theorem compare_scaled {m m' k k' v v' : Nat} {e e' : Int} (low : 2 ^ 52 ≤ m) (high : m < 2 ^ 53)
    (low' : 2 ^ 52 ≤ m') (high' : m' < 2 ^ 53) (he : e = (k : Int) - 52) (he' : e' = (k' : Int) - 52)
    (hv : v * 2 ^ 52 = m * 2 ^ k) (hv' : v' * 2 ^ 52 = m' * 2 ^ k') :
    (compare e e').then (compare m m') = .lt ↔ v < v' := by
  have hscaled := scaled_lt k k' low high low' high'
  rw [← hv, ← hv', Nat.mul_lt_mul_right (by decide)] at hscaled
  rw [hscaled, Ordering.then_eq_lt, compare_lt_iff_lt, compare_eq_iff_eq, compare_lt_iff_lt]
  omega

/-- Doubles with integer values are in the order of these integers. -/
theorem Holds.lt_iff {u w : UnpackedFloat} {v x : Int} (hu : Holds u v) (hw : Holds w x) :
    u.lt w = true ↔ v < x := by
  have positive {m k v : Nat} (low : 2 ^ 52 ≤ m) (value : v * 2 ^ 52 = m * 2 ^ k) : 0 < v := by
    have hm : 0 < m * 2 ^ k := Nat.mul_pos (by omega) (Nat.two_pow_pos k)
    omega
  rw [UnpackedFloat.lt, beq_iff_eq]
  cases hu with
  | zero s =>
    cases hw with
    | zero s' => exact iff_of_false (by cases s <;> cases s' <;> nofun) (Int.lt_irrefl 0)
    | @finite s' m' k' v' e' hm' low' high' exponent' value' small' =>
      have hp := positive low' value'
      cases s' with
      | negative => exact iff_of_false nofun (by change ¬ (0 : Int) < -v'; omega)
      | positive => exact iff_of_true rfl (by change (0 : Int) < v'; omega)
  | @finite s m k v e hm low high exponent value small =>
    have hp := positive low value
    cases hw with
    | zero s' =>
      cases s with
      | negative => exact iff_of_true rfl (by change -(v : Int) < 0; omega)
      | positive => exact iff_of_false nofun (by change ¬ (v : Int) < 0; omega)
    | @finite s' m' k' v' e' hm' low' high' exponent' value' small' =>
      have hp' := positive low' value'
      cases s with
      | positive =>
        cases s' with
        | positive =>
          have hc := compare_scaled low high low' high' exponent exponent' value value'
          change some _ = some _ ↔ (v : Int) < v'
          rw [Option.some_inj, hc, Int.ofNat_lt]
        | negative => exact iff_of_false nofun (by change ¬ (v : Int) < -v'; omega)
      | negative =>
        cases s' with
        | positive => exact iff_of_true rfl (by change -(v : Int) < v'; omega)
        | negative =>
          -- The order of the mantissas is turned round.
          have hc := compare_scaled low' high' low high exponent' exponent value' value
          change some (Ordering.swap _) = some _ ↔ -(v : Int) < -v'
          rw [Option.some_inj, Ordering.swap_then, Int.neg_lt_neg_iff, Int.ofNat_lt, ← hc,
            ← Std.OrientedOrd.eq_swap, ← Std.OrientedOrd.eq_swap]

theorem log2_mul_two_pow {n : Nat} (hn : 0 < n) (j : Nat) : (n * 2 ^ j).log2 = n.log2 + j := by
  have hne : n ≠ 0 := Nat.ne_of_gt hn
  have hlow := Nat.log2_self_le hne
  have hhigh : n < 2 ^ (n.log2 + 1) := Nat.lt_log2_self
  rw [Nat.log2_eq_iff (Nat.mul_ne_zero hne (Nat.ne_of_gt (Nat.two_pow_pos j)))]
  refine ⟨?_, ?_⟩
  · rw [Nat.pow_add]
    exact Nat.mul_le_mul_right _ hlow
  · rw [Nat.add_right_comm, Nat.pow_add]
    exact Nat.mul_lt_mul_of_pos_right hhigh (Nat.two_pow_pos j)

/-- A number of fewer bits is made as long as that, and nothing is rounded. -/
theorem holds_round {n : Nat} (hn : 0 < n) (h : n < 2 ^ 53) :
    Holds (UnpackedFloat.round .binary64 .positive n 0) n := by
  have hlog : n.log2 < 53 := (Nat.log2_lt (Nat.ne_of_gt hn)).mpr h
  have ht : Format.binary64.targetExponent (totalExponent n 0) = (n.log2 : Int) - 52 := by
    change max ((n.log2 : Int) + 1 + 0 - (53 : Nat)) (-1074) = _
    omega
  have hshift : (0 - ((n.log2 : Int) - 52)).toNat = 52 - n.log2 := by omega
  simp only [UnpackedFloat.round, decreaseExponent, ht, hshift, Nat.shiftLeft_eq]
  refine holds_roundWithAccuracy .positive (k := 0) (j := n.log2) ?_ (by omega) ?_ (by omega)
  · rw [log2_mul_two_pow hn]
    omega
  · rw [quotient_zero, Nat.mul_assoc, ← Nat.pow_add]
    congr 2
    omega

theorem holds_ofUInt64 {n : Nat} (h : n < 2 ^ 53) :
    Holds (UnpackedFloat.ofUInt64 .binary64 n.toUInt64) n := by
  have ht : n.toUInt64.toNat = n := UInt64.toNat_ofNat_of_lt' (Nat.lt_trans h (by decide))
  simp only [UnpackedFloat.ofUInt64, UnpackedFloat.ofNat, UnpackedFloat.ofInt, ht,
    UnpackedFloat.normalize]
  rcases Nat.eq_zero_or_pos n with rfl | hn
  · exact .zero .positive
  · have hc : compare (n : Int) 0 = .gt := compare_gt_iff_gt.mpr (by omega)
    simp only [hc]
    exact holds_round hn h

/-- The factor that converting a short decimal multiplies by. -/
def one : UnpackedFloat := .finite .positive (2 ^ 52) (-52) (by decide)

theorem Holds.mul_one {u : UnpackedFloat} {v : Int} (h : Holds u v) :
    Holds (UnpackedFloat.mul .binary64 u one) v := by
  cases h with
  | zero s => exact .zero (s * .positive)
  | @finite s m k v e hm low high exponent value small =>
    have hs : s * .positive = s := by cases s <;> rfl
    change Holds (roundWithAccuracy .binary64 (s * .positive) (m * 2 ^ 52) (e + -52) .exact) _
    rw [hs]
    refine holds_roundWithAccuracy s (k := 52) (j := k) ?_ (by omega) ?_ small
    · rw [log2_mul_two_pow hm, log2_of_bounds low high]
    · have hq := quotient_mul m 0 52
      rw [quotient_zero, Nat.zero_add] at hq
      rw [hq, value]

theorem mul_positive {m m' : Nat} {e e' : Int} (h : 0 < m) (h' : 0 < m') :
    UnpackedFloat.mul .binary64 (.finite .positive m e h) (.finite .positive m' e' h') =
      roundWithAccuracy .binary64 .positive (m * m') (e + e') .exact := rfl

/-- A number of more bits is rounded once. -/
theorem holds_ofScientific {n : Nat} (hlow : 2 ^ 53 ≤ n) (hhigh : n ≤ 2 ^ 63) :
    Holds (UnpackedFloat.ofScientific .binary64 n 0) (nearestNat n) := by
  have hn : 0 < n := by omega
  have hlog : 53 ≤ n.log2 := (Nat.le_log2 (Nat.ne_of_gt hn)).mpr hlow
  have hs : nearestNat n ≤ 2 ^ 63 := nearestNat_mono hhigh
  have heq : UnpackedFloat.ofScientific .binary64 n 0 =
      roundWithAccuracy .binary64 .positive (n * 2 ^ 53) (-53) .exact := by
    rw [UnpackedFloat.ofScientific, dif_neg (Nat.ne_of_gt hn), if_neg (by decide),
      if_neg (by simp), if_pos (Int.le_refl 0), ← Nat.shiftLeft_eq]
    rw [mul_positive, Int.toNat_zero, Nat.pow_zero, Nat.mul_one, Int.add_zero]
    rfl
  rw [heq]
  refine holds_roundWithAccuracy .positive (k := excess n + 53) (j := n.log2) ?_ ?_ ?_ hs
  · rw [log2_mul_two_pow hn]
    unfold excess
    omega
  · unfold excess
    omega
  · rw [quotient_mul, nearestNat, Nat.mul_assoc, ← Nat.pow_add]
    congr 2
    unfold excess
    omega

/-- The double of a natural number has the rounded number as its value. -/
theorem holds_ofNat {n : Nat} (h : n ≤ 2 ^ 63) :
    Holds (Float.ofNat n).toModel.unpack (nearestNat n) := by
  rcases Nat.lt_or_ge n (2 ^ 53) with hlt | hge
  · have hf : Float.ofNat n = n.toUInt64.toFloat * Float.ofBits 0x3FF0000000000000 := by
      change Float.ofScientific n false 0 = _
      rw [Float.ofScientific, dif_pos ⟨hlt, by decide⟩]
      rfl
    have hu : Holds (UnpackedFloat.ofUInt64 .binary64 n.toUInt64) n := holds_ofUInt64 hlt
    have hone : (Float.ofBits 0x3FF0000000000000).toModel.unpack = one := rfl
    rw [hf, nearestNat_of_le (Nat.le_of_lt hlt)]
    change Holds (Float.Model.pack (UnpackedFloat.mul .binary64
      (Float.Model.pack (UnpackedFloat.ofUInt64 .binary64 n.toUInt64)).unpack _)).unpack _
    rw [hone, hu.unpack_pack, hu.mul_one.unpack_pack]
    exact hu.mul_one
  · have hf : Float.ofNat n = .ofModel (Float.Model.pack (UnpackedFloat.ofScientific .binary64 n 0)) := by
      change Float.ofScientific n false 0 = _
      rw [Float.ofScientific, dif_neg (by omega)]
      rfl
    have hs := holds_ofScientific hge h
    rw [hf]
    change Holds (Float.Model.pack _).unpack _
    rw [hs.unpack_pack]
    exact hs

theorem holds_floatOfInt (n : Int64) : Holds (floatOfInt n).toModel.unpack (nearest n.toInt) := by
  have hlow : -2 ^ 63 ≤ n.toInt := n.le_toInt
  have hhigh : n.toInt < 2 ^ 63 := n.toInt_lt
  rw [floatOfInt]
  cases hn : n.toInt with
  | ofNat m =>
    rw [hn, Int.ofNat_eq_natCast] at hhigh
    rw [Int.ofNat_eq_natCast, nearest_natCast]
    exact holds_ofNat (by omega)
  | negSucc m =>
    have hm : Holds (Float.ofNat (m + 1)).toModel.unpack (nearestNat (m + 1)) := holds_ofNat (by omega)
    have hv : nearest (.negSucc m) = -nearestNat (m + 1) := by
      rw [Int.negSucc_eq, ← Int.natCast_succ, nearest_neg, nearest_natCast]
    rw [hv]
    change Holds (Float.Model.pack (Float.ofNat (m + 1)).toModel.unpack.neg).unpack _
    rw [hm.neg.unpack_pack]
    exact hm.neg

/-- Doubles of integers are in the order of the rounded integers. -/
theorem floatOfInt_lt (a b : Int64) :
    floatOfInt a < floatOfInt b ↔ nearest a.toInt < nearest b.toInt := by
  refine Iff.trans ?_ ((holds_floatOfInt a).lt_iff (holds_floatOfInt b))
  change decide ((floatOfInt a).toModel < (floatOfInt b).toModel) = true ↔ _
  rw [decide_eq_true_iff]
  rfl

end Rounding

end Lisplet
