import Mathlib.Algebra.Order.Field.Power
import Mathlib.Tactic.FieldSimp
import Mathlib.Tactic.Linarith
import Mathlib.Tactic.NormNum
import Mathlib.Tactic.Positivity
import Mathlib.Tactic.Ring
import Lisplet.Proofs.Numbers
import Lisplet.Proofs.Rounding

/-! Reading a decimal gives the nearest double, and of two that are equally near the one with the
even mantissa. Numbers are compared as rationals. A number that would round to 2 ^ 1024 or more reads
as infinity. -/

namespace Lisplet

namespace Rounding

open Float.Model Float.Model.UnpackedFloat

/-- What a mantissa with its round bit and its sticky bit tells of a number. -/
def Represents (em : ExtendedMantissa) (x : ℚ) : Prop :=
  match em.roundBit, em.stickyBit with
  | false, false => x = em.mantissa
  | false, true => em.mantissa < x ∧ x < em.mantissa + 1 / 2
  | true, false => x = em.mantissa + 1 / 2
  | true, true => em.mantissa + 1 / 2 < x ∧ x < em.mantissa + 1

/-- The whole number is nearest to `x`; a half goes to the even one. -/
def Rounded (x : ℚ) (r : ℕ) : Prop := |x - r| ≤ 1 / 2 ∧ (|x - r| = 1 / 2 → Even r)

theorem Represents.floor {em : ExtendedMantissa} {x : ℚ} (h : Represents em x) :
    em.mantissa ≤ x ∧ x < em.mantissa + 1 := by
  obtain ⟨m, round, sticky⟩ := em
  cases round <;> cases sticky <;> simp only [Represents] at h ⊢ <;> constructor <;> linarith

/-- Less than half a unit away there is no tie. -/
theorem rounded_of_lt {x : ℚ} {r : ℕ} (h : |x - r| < 1 / 2) : Rounded x r :=
  ⟨h.le, fun he => absurd he h.ne⟩

theorem Represents.rounded {em : ExtendedMantissa} {x : ℚ} (h : Represents em x) :
    Rounded x em.roundedMantissa := by
  obtain ⟨m, round, sticky⟩ := em
  cases round with
  | false =>
    -- The mantissa itself is nearest.
    refine rounded_of_lt (abs_lt.mpr ?_)
    cases sticky with
    | false =>
      obtain rfl : x = m := h
      constructor <;> norm_num [ExtendedMantissa.roundedMantissa, ExtendedMantissa.accuracy,
        Accuracy.roundToNearestEven]
    | true =>
      obtain ⟨hl, hh⟩ : (m : ℚ) < x ∧ x < m + 1 / 2 := h
      constructor
      · change -(1 / 2) < x - m
        linarith
      · change x - m < 1 / 2
        linarith
  | true =>
    cases sticky with
    | false =>
      obtain rfl : x = m + 1 / 2 := h
      change Rounded _ (m + m % 2)
      rcases Nat.even_or_odd m with hm | hm
      · rw [Nat.even_iff.mp hm, Nat.add_zero]
        refine ⟨?_, fun _ => hm⟩
        rw [add_sub_cancel_left, abs_of_pos (by norm_num)]
      · rw [Nat.odd_iff.mp hm]
        refine ⟨?_, fun _ => hm.add_one⟩
        rw [Nat.cast_add, add_sub_add_left_eq_sub]
        norm_num [abs_of_neg]
    | true =>
      obtain ⟨hl, hh⟩ : (m : ℚ) + 1 / 2 < x ∧ x < m + 1 := h
      refine rounded_of_lt (abs_lt.mpr ?_)
      change -(1 / 2) < x - (m + 1 : ℕ) ∧ x - (m + 1 : ℕ) < 1 / 2
      push_cast
      constructor <;> linarith

theorem shiftRightOne_even (a : ℕ) (round sticky : Bool) :
    ExtendedMantissa.shiftRightOne ⟨2 * a, round, sticky⟩ = ⟨a, false, round || sticky⟩ := by
  simp [ExtendedMantissa.shiftRightOne]

theorem shiftRightOne_odd (a : ℕ) (round sticky : Bool) :
    ExtendedMantissa.shiftRightOne ⟨2 * a + 1, round, sticky⟩ = ⟨a, true, round || sticky⟩ := by
  have hd : (2 * a + 1) / 2 = a := by omega
  simp [ExtendedMantissa.shiftRightOne, hd]

/-- Half of the number is told by half of the mantissa; the bit that is lost is the round bit. -/
theorem Represents.shiftRightOne {em : ExtendedMantissa} {x : ℚ} (h : Represents em x) :
    Represents em.shiftRightOne (x / 2) := by
  obtain ⟨m, round, sticky⟩ := em
  obtain ⟨a, rfl | rfl⟩ := Nat.even_or_odd' m
  · rw [shiftRightOne_even]
    cases round <;> cases sticky <;> simp only [Represents, Bool.or_true, Bool.or_false] at h ⊢ <;>
      push_cast at h
    · linarith
    · constructor <;> linarith
    · constructor <;> linarith
    · constructor <;> linarith
  · rw [shiftRightOne_odd]
    cases round <;> cases sticky <;> simp only [Represents, Bool.or_true, Bool.or_false] at h ⊢ <;>
      push_cast at h
    · linarith
    · constructor <;> linarith
    · constructor <;> linarith
    · constructor <;> linarith

theorem Represents.shiftRight {em : ExtendedMantissa} {x : ℚ} (h : Represents em x) (k : ℕ) :
    Represents (em >>> k) (x / 2 ^ k) := by
  change Represents (k.repeat ExtendedMantissa.shiftRightOne em) _
  induction k with
  | zero => simpa [Nat.repeat] using h
  | succ k ih =>
    rw [pow_succ, ← div_div]
    exact ih.shiftRightOne

theorem mantissa_ofMantissaAndAccuracy (m : ℕ) (accuracy : Accuracy) :
    (ExtendedMantissa.ofMantissaAndAccuracy m accuracy).mantissa = m := by
  unfold ExtendedMantissa.ofMantissaAndAccuracy
  split <;> rfl

theorem represents_exact (m : ℕ) : Represents (.ofMantissaAndAccuracy m .exact) m := rfl

/-- The remainder of a division tells where the quotient lies. -/
theorem represents_fraction (n : ℕ) {d : ℕ} (hd : 0 < d) :
    Represents (.ofMantissaAndAccuracy (n / d) (accuracyOfFraction (n % d) d)) (n / d : ℚ) := by
  have hq : (n / d : ℚ) = (n / d : ℕ) + (n % d : ℕ) / d := by
    have hn : (d : ℚ) * (n / d : ℕ) + (n % d : ℕ) = n := by exact_mod_cast Nat.div_add_mod n d
    field_simp
    linarith
  have hd' : (0 : ℚ) < d := by exact_mod_cast hd
  have hr : ((n % d : ℕ) : ℚ) < d := by exact_mod_cast Nat.mod_lt n hd
  rw [hq]
  generalize n / d = q
  generalize n % d = r at hr
  rw [accuracyOfFraction]
  by_cases h0 : r = 0
  · rw [if_pos h0, h0]
    simp [ExtendedMantissa.ofMantissaAndAccuracy, Represents]
  · have hpos : (0 : ℚ) < r / d := div_pos (by exact_mod_cast Nat.pos_of_ne_zero h0) hd'
    have hone : (r : ℚ) / d < 1 := (div_lt_one hd').mpr hr
    rw [if_neg h0]
    rcases Nat.lt_trichotomy (2 * r) d with hc | hc | hc
    · have hlt : (r : ℚ) / d < 1 / 2 := by
        rw [div_lt_div_iff₀ hd' two_pos]
        exact_mod_cast (by omega : r * 2 < 1 * d)
      rw [Nat.compare_eq_lt.mpr hc]
      exact ⟨lt_add_of_pos_right _ hpos, (add_lt_add_iff_left _).mpr hlt⟩
    · have heq : (r : ℚ) / d = 1 / 2 := by
        rw [div_eq_div_iff hd'.ne' two_ne_zero]
        exact_mod_cast (by omega : r * 2 = 1 * d)
      rw [Nat.compare_eq_eq.mpr hc]
      exact congrArg (q + · : ℚ → ℚ) heq
    · have hgt : 1 / 2 < (r : ℚ) / d := by
        rw [div_lt_div_iff₀ two_pos hd']
        exact_mod_cast (by omega : 1 * d < r * 2)
      rw [Nat.compare_eq_gt.mpr hc]
      exact ⟨(add_lt_add_iff_left _).mpr hgt, (add_lt_add_iff_left _).mpr hone⟩

/-! ### Nearest doubles -/

/-- A double that is not negative, with no bound on its size: a whole number below 2 ^ 53 times a
power of two. -/
def IsDouble (v : ℚ) : Prop := ∃ (m : ℕ) (e : ℤ), m < 2 ^ 53 ∧ -1074 ≤ e ∧ v = m * 2 ^ e

/-- No double is nearer to `x`, and if another is as near then the mantissa is even. -/
def Nearest (x : ℚ) (m : ℕ) (e : ℤ) : Prop :=
  ∀ w, IsDouble w → |x - m * 2 ^ e| ≤ |x - w| ∧ (|x - m * 2 ^ e| = |x - w| → w = m * 2 ^ e ∨ Even m)

/-- Of the whole numbers none is nearer than the rounded one, and none other as near if it is odd. -/
theorem Rounded.le {y : ℚ} {q : ℕ} (h : Rounded y q) (n : ℕ) :
    |y - q| ≤ |y - n| ∧ (|y - q| = |y - n| → n = q ∨ Even q) := by
  obtain ⟨hle, heven⟩ := h
  by_cases hn : n = q
  · subst hn
    exact ⟨le_rfl, fun _ => Or.inl rfl⟩
  · -- Two whole numbers are a unit apart at least.
    have hunit : (1 : ℚ) ≤ |(n : ℚ) - q| := by
      have hz : ((n : ℤ) - q) ≠ 0 := by omega
      have ha := Int.one_le_abs hz
      exact_mod_cast ha
    have htri : |(n : ℚ) - q| ≤ |y - q| + |y - n| := by
      have := abs_sub_le (n : ℚ) y q
      rw [abs_sub_comm (n : ℚ) y] at this
      linarith
    refine ⟨by linarith, fun he => Or.inr (heven (by linarith))⟩

theorem Rounded.le_natCast {y : ℚ} {q n : ℕ} (h : Rounded y q) (hy : y ≤ n) : q ≤ n := by
  have hq := (abs_le.mp h.1).1
  have hlt : (q : ℚ) < n + 1 := by linarith
  exact Nat.le_of_lt_succ (by exact_mod_cast hlt)

theorem Rounded.natCast_le {y : ℚ} {q n : ℕ} (h : Rounded y q) (hy : n ≤ y) : n ≤ q := by
  have hq := (abs_le.mp h.1).2
  have hlt : (n : ℚ) < q + 1 := by linarith
  exact Nat.le_of_lt_succ (by exact_mod_cast hlt)

/-- A double with at least this exponent is a whole number of units. -/
theorem exists_units {m : ℕ} {e e' : ℤ} (h : e ≤ e') :
    ∃ n : ℕ, (m * 2 ^ e' : ℚ) = n * 2 ^ e := by
  obtain ⟨k, rfl⟩ := Int.le.dest h
  refine ⟨m * 2 ^ k, ?_⟩
  rw [zpow_add₀ two_ne_zero, zpow_natCast]
  push_cast
  ring

/-- A double with a smaller exponent is below every number of 53 bits in these units. -/
theorem lt_of_exponent_lt {m : ℕ} {e e' : ℤ} (hm : m < 2 ^ 53) (h : e' < e) :
    (m * 2 ^ e' : ℚ) < 2 ^ 52 * 2 ^ e := by
  have hm' : (m : ℚ) < 2 ^ 53 := by exact_mod_cast hm
  calc (m * 2 ^ e' : ℚ) < 2 ^ 53 * 2 ^ e' := by gcongr
    _ ≤ 2 ^ 53 * 2 ^ (e - 1) := by
      gcongr
      · exact one_le_two
      · omega
    _ = 2 ^ 52 * 2 ^ e := by
      rw [zpow_sub_one₀ two_ne_zero]
      ring

/-- A number that is rounded in units of its last place is rounded to the nearest double. -/
theorem nearest_of_rounded {x : ℚ} {q : ℕ} {e : ℤ} (hlow : 2 ^ 52 * 2 ^ e ≤ x ∨ e = -1074)
    (h : Rounded (x / 2 ^ e) q) : Nearest x q e := by
  have hunit : (0 : ℚ) < 2 ^ e := by positivity
  have hscale (n : ℕ) : |x - n * 2 ^ e| = |x / 2 ^ e - n| * 2 ^ e := by
    rw [← abs_of_pos hunit, ← abs_mul, abs_of_pos hunit, sub_mul, div_mul_cancel₀ x hunit.ne']
  have hwhole (n : ℕ) : |x - q * 2 ^ e| ≤ |x - n * 2 ^ e| ∧
      (|x - q * 2 ^ e| = |x - n * 2 ^ e| → n = q ∨ Even q) := by
    rw [hscale, hscale, mul_le_mul_iff_left₀ hunit, mul_left_inj' hunit.ne']
    exact h.le n
  rintro w ⟨m, e', hm, hmin, rfl⟩
  rcases le_or_gt e e' with hle | hlt
  · obtain ⟨n, hn⟩ := exists_units (m := m) hle
    rw [hn]
    obtain ⟨hnear, htie⟩ := hwhole n
    exact ⟨hnear, fun he => (htie he).imp_left (congrArg (· * 2 ^ e : ℕ → ℚ))⟩
  · -- The power of two at the lower end of the units is nearer than `w`.
    have hx : 2 ^ 52 * 2 ^ e ≤ x := hlow.resolve_right (by omega)
    have hw := lt_of_exponent_lt hm hlt
    have hpower := (hwhole (2 ^ 52)).1
    rw [Nat.cast_pow, Nat.cast_ofNat, abs_of_nonneg (sub_nonneg.mpr hx)] at hpower
    rw [abs_of_pos (sub_pos.mpr (hw.trans_le hx))]
    exact ⟨by linarith, fun he => absurd he (by linarith)⟩

/-- The same double with another exponent. -/
theorem Nearest.of_eq {x : ℚ} {q m : ℕ} {e e' : ℤ} (h : Nearest x q e)
    (heq : (m * 2 ^ e' : ℚ) = q * 2 ^ e) (heven : Even m) : Nearest x m e' := by
  intro w hw
  rw [heq]
  exact ⟨(h w hw).1, fun _ => Or.inr heven⟩

/-- The double is the one nearest to `x`. -/
def IsNearest (x : ℚ) (u : UnpackedFloat) : Prop :=
  ∃ m e, Canonical m e ∧ Nearest x m e ∧ u = parts .positive m e

theorem targetExponent_eq (m : ℕ) (e : ℤ) :
    Format.binary64.targetExponent (totalExponent m e) = max (m.log2 + e - 52) (-1074) := by
  change max ((m.log2 : ℤ) + 1 + e - (53 : ℕ)) (-1074) = _
  omega

/-- The second shift undoes a carry. -/
theorem shift_again {q : ℕ} {e : ℤ} (hq : q ≤ 2 ^ 53) (hnormal : 2 ^ 52 ≤ q ∨ e = -1074)
    (he : -1074 ≤ e) :
    ∃ m e', Canonical m e' ∧ (m * 2 ^ e' : ℚ) = q * 2 ^ e ∧ (m = q ∧ e' = e ∨ Even m) ∧
      (shiftToTargetExponent .binary64 q e .exact).1.mantissa = m ∧
      (shiftToTargetExponent .binary64 q e .exact).2 = e' := by
  simp only [shiftToTargetExponent, shiftToExponent, targetExponent_eq]
  rcases Nat.lt_or_eq_of_le hq with hlt | rfl
  · have hlog : q.log2 ≤ 52 := by
      by_cases h0 : q = 0
      · rw [h0, Nat.log2_zero]
        exact Nat.zero_le 52
      · exact Nat.le_of_lt_succ ((Nat.log2_lt h0).mpr hlt)
    have hk : (max ((q.log2 : ℤ) + e - 52) (-1074) - e).toNat = 0 := by omega
    rw [hk]
    exact ⟨q, e, ⟨hlt, he, hnormal⟩, rfl, Or.inl ⟨rfl, rfl⟩, rfl, add_zero e⟩
  · have hk : (max (((2 ^ 53 : ℕ).log2 : ℤ) + e - 52) (-1074) - e).toNat = 1 := by
      rw [Nat.log2_two_pow]
      omega
    rw [hk]
    refine ⟨2 ^ 52, e + 1, ⟨by decide, by omega, Or.inl le_rfl⟩, ?_, Or.inr ⟨2 ^ 51, by decide⟩,
      rfl, rfl⟩
    rw [zpow_add_one₀ two_ne_zero]
    push_cast
    ring

/-- The first shift leaves 53 bits, or as many as the least exponent allows. -/
theorem shift_first {m : ℕ} {e : ℤ} {accuracy : Accuracy} {y : ℚ}
    (h : Represents (.ofMantissaAndAccuracy m accuracy) y) (hm : 2 ^ 52 ≤ m ∨ e ≤ -1074) :
    ∃ q e', q ≤ 2 ^ 53 ∧ (2 ^ 52 ≤ q ∨ e' = -1074) ∧ -1074 ≤ e' ∧ Nearest (y * 2 ^ e) q e' ∧
      (shiftToTargetExponent .binary64 m e accuracy).1.roundedMantissa = q ∧
      (shiftToTargetExponent .binary64 m e accuracy).2 = e' := by
  simp only [shiftToTargetExponent, shiftToExponent, targetExponent_eq]
  obtain ⟨hlow, hhigh⟩ := h.floor
  rw [mantissa_ofMantissaAndAccuracy] at hlow hhigh
  have hlog : 2 ^ 52 ≤ m → 52 ≤ m.log2 := fun hle => (Nat.le_log2 (by omega)).mpr hle
  generalize hk : (max ((m.log2 : ℤ) + e - 52) (-1074) - e).toNat = k
  have hrounded := (h.shiftRight k).rounded
  have hscale : y * 2 ^ e / 2 ^ (e + k) = y / 2 ^ k := by
    rw [zpow_add₀ two_ne_zero, zpow_natCast, mul_comm, mul_div_mul_left _ _ (by positivity)]
  have hbelow : y / 2 ^ k ≤ (2 ^ 53 : ℕ) := by
    have hm1 : m + 1 ≤ 2 ^ (53 + k) :=
      Nat.lt_log2_self.trans_le (Nat.pow_le_pow_right two_pos (by omega))
    have hm2 : (m + 1 : ℚ) ≤ 2 ^ (53 + k) := by exact_mod_cast hm1
    rw [div_le_iff₀ (by positivity), Nat.cast_pow, Nat.cast_ofNat, ← pow_add]
    exact hhigh.le.trans hm2
  have habove : (2 ^ 52 : ℕ) ≤ y / 2 ^ k ∨ e + k = -1074 := by
    by_cases hleast : e + k = -1074
    · exact Or.inr hleast
    · have hbits : m.log2 = 52 + k := by omega
      have hm0 : m ≠ 0 := fun h0 => by
        rw [h0, Nat.log2_zero] at hbits
        omega
      have hm1 : (2 ^ (52 + k) : ℚ) ≤ m := by exact_mod_cast hbits ▸ Nat.log2_self_le hm0
      rw [le_div_iff₀ (by positivity), Nat.cast_pow, Nat.cast_ofNat, ← pow_add]
      exact Or.inl (hm1.trans hlow)
  refine ⟨_, _, hrounded.le_natCast hbelow, habove.imp_left hrounded.natCast_le, by omega, ?_, rfl, rfl⟩
  refine nearest_of_rounded (habove.imp_left fun hle => ?_) (hscale ▸ hrounded)
  rw [← hscale, le_div_iff₀ (by positivity), Nat.cast_pow, Nat.cast_ofNat] at hle
  exact hle

theorem isNearest_round {m : ℕ} {e : ℤ} {accuracy : Accuracy} {y : ℚ}
    (h : Represents (.ofMantissaAndAccuracy m accuracy) y) (hm : 2 ^ 52 ≤ m ∨ e ≤ -1074) :
    IsNearest (y * 2 ^ e) (roundWithAccuracy .binary64 .positive m e accuracy) := by
  obtain ⟨q, e₁, hq, hnormal, he₁, hnear, hfirst, hfirst'⟩ := shift_first h hm
  obtain ⟨m', e', hcanonical, hvalue, heven, hsecond, hsecond'⟩ := shift_again hq hnormal he₁
  refine ⟨m', e', hcanonical, ?_, ?_⟩
  · rcases heven with ⟨rfl, rfl⟩ | heven
    · exact hnear
    · exact hnear.of_eq hvalue heven
  · simp only [roundWithAccuracy_eq_parts, hfirst, hfirst', hsecond, hsecond']

/-! ### Products, quotients and powers of ten -/

section

variable {m m' : ℕ} {e e' : ℤ} (h : 0 < m) (h' : 0 < m')

theorem isNearest_mul (hbits : 2 ^ 52 ≤ m * m') :
    IsNearest (m * 2 ^ e * (m' * 2 ^ e'))
      (UnpackedFloat.mul .binary64 (.finite .positive m e h) (.finite .positive m' e' h')) := by
  have hvalue : (m * 2 ^ e * (m' * 2 ^ e') : ℚ) = (m * m' : ℕ) * 2 ^ (e + e') := by
    rw [zpow_add₀ two_ne_zero]
    push_cast
    ring
  rw [mul_positive, hvalue]
  exact isNearest_round (represents_exact _) (Or.inl hbits)

theorem div_positive :
    UnpackedFloat.div .binary64 (.finite .positive m e h) (.finite .positive m' e' h') =
      let (q, l, accuracy) := divCore .binary64 m e m' e'
      roundWithAccuracy .binary64 .positive q l accuracy := rfl

/-- A quotient is computed with 53 bits at least, or as many as the least exponent asks for. -/
theorem isNearest_div :
    IsNearest (m * 2 ^ e / (m' * 2 ^ e'))
      (UnpackedFloat.div .binary64 (.finite .positive m e h) (.finite .positive m' e' h')) := by
  have ht : Format.binary64.targetExponent (totalExponent m e - totalExponent m' e') =
      max (m.log2 + e - m'.log2 - e' - 53) (-1074) := by
    change max ((m.log2 : ℤ) + 1 + e - (m'.log2 + 1 + e') - (53 : ℕ)) (-1074) = _
    omega
  rw [div_positive]
  simp only [divCore, ht]
  generalize hl : min (e - e') (max ((m.log2 : ℤ) + e - m'.log2 - e' - 53) (-1074)) = l
  generalize hk : (e - e' - l).toNat = k
  have hvalue : (m * 2 ^ e / (m' * 2 ^ e') : ℚ) = ((m <<< k : ℕ) / m') * 2 ^ l := by
    have he : e = e' + l + k := by omega
    have hm : (m' : ℚ) ≠ 0 := by exact_mod_cast h'.ne'
    rw [he, zpow_add₀ two_ne_zero, zpow_add₀ two_ne_zero, zpow_natCast, Nat.shiftLeft_eq]
    push_cast
    field_simp
  rw [hvalue]
  refine isNearest_round (represents_fraction _ h') ?_
  by_cases hleast : l ≤ -1074
  · exact Or.inr hleast
  · refine Or.inl ((Nat.le_div_iff_mul_le h').mpr ?_)
    calc 2 ^ 52 * m' ≤ 2 ^ 52 * 2 ^ (m'.log2 + 1) := Nat.mul_le_mul_left _ Nat.lt_log2_self.le
      _ = 2 ^ (52 + (m'.log2 + 1)) := (pow_add ..).symm
      _ ≤ 2 ^ (m.log2 + k) := Nat.pow_le_pow_right two_pos (by omega)
      _ = 2 ^ m.log2 * 2 ^ k := pow_add ..
      _ ≤ m * 2 ^ k := Nat.mul_le_mul_right _ (Nat.log2_self_le h.ne')
      _ = m <<< k := (Nat.shiftLeft_eq ..).symm

end

/-- A whole number times a power of ten is rounded once. -/
theorem isNearest_scaled {n : ℕ} (hn : 0 < n) (e : ℤ) :
    IsNearest (n * 10 ^ e)
      (if 0 ≤ e then
        UnpackedFloat.mul .binary64
          (.finite .positive (n <<< 53) (-53) (by simpa [Nat.pos_iff_ne_zero] using hn.ne'))
          (.finite .positive (10 ^ e.toNat) 0 (Nat.pow_pos (by decide)))
      else
        UnpackedFloat.div .binary64 (.finite .positive n 0 hn)
          (.finite .positive (10 ^ (-e).toNat) 0 (Nat.pow_pos (by decide)))) := by
  by_cases he : 0 ≤ e
  · have hten : ((10 : ℚ) ^ e) = (10 ^ e.toNat : ℕ) * 2 ^ (0 : ℤ) := by
      rw [zpow_zero, mul_one, Nat.cast_pow, Nat.cast_ofNat, ← zpow_natCast, Int.toNat_of_nonneg he]
    have hvalue : (n : ℚ) = (n <<< 53 : ℕ) * 2 ^ (-53 : ℤ) := by
      have htwo : (2 : ℚ) ^ 53 * 2 ^ (-53 : ℤ) = 1 := by norm_num
      rw [Nat.shiftLeft_eq, Nat.cast_mul, Nat.cast_pow, Nat.cast_ofNat, mul_assoc, htwo, mul_one]
    rw [if_pos he, hten, hvalue]
    refine isNearest_mul _ _ ?_
    calc 2 ^ 52 ≤ 2 ^ 53 := by decide
      _ ≤ n * 2 ^ 53 := Nat.le_mul_of_pos_left _ hn
      _ = n <<< 53 := (Nat.shiftLeft_eq ..).symm
      _ ≤ n <<< 53 * 10 ^ e.toNat := Nat.le_mul_of_pos_right _ (Nat.pow_pos (by decide))
  · have hvalue : (n * 10 ^ e : ℚ) = n * 2 ^ (0 : ℤ) / ((10 ^ (-e).toNat : ℕ) * 2 ^ (0 : ℤ)) := by
      have hneg : ((-e).toNat : ℤ) = -e := Int.toNat_of_nonneg (by omega)
      rw [zpow_zero, mul_one, mul_one, Nat.cast_pow, Nat.cast_ofNat, ← zpow_natCast, hneg, zpow_neg,
        div_inv_eq_mul]
    rw [if_neg he, hvalue]
    exact isNearest_div _ _

theorem isNearest_ofScientific {n : ℕ} {e : ℤ} (hn : n ≠ 0) (hhigh : e ≤ 2048)
    (hlow : -(2048 + (n.log2 : ℤ)) ≤ e) :
    IsNearest (n * 10 ^ e) (UnpackedFloat.ofScientific .binary64 n e) := by
  have hbig : ((2 : ℤ) ^ Format.binary64.exponentBits) = 2048 := by decide
  rw [UnpackedFloat.ofScientific, dif_neg hn, if_neg (by omega), if_neg (by omega)]
  exact isNearest_scaled (Nat.pos_of_ne_zero hn) e

/-- The double is this number, with 53 bits in its mantissa. -/
def Exactly (u : UnpackedFloat) (v : ℚ) : Prop :=
  ∃ m e h, u = .finite .positive m e h ∧ 2 ^ 52 ≤ m ∧ v = m * 2 ^ e

theorem Exactly.isNearest_mul {u u' : UnpackedFloat} {v v' : ℚ} (h : Exactly u v)
    (h' : Exactly u' v') : IsNearest (v * v') (UnpackedFloat.mul .binary64 u u') := by
  obtain ⟨m, e, hm, rfl, hbits, rfl⟩ := h
  obtain ⟨m', e', hm', rfl, -, rfl⟩ := h'
  exact Rounding.isNearest_mul hm hm' (hbits.trans (Nat.le_mul_of_pos_right m hm'))

theorem Exactly.isNearest_div {u u' : UnpackedFloat} {v v' : ℚ} (h : Exactly u v)
    (h' : Exactly u' v') : IsNearest (v / v') (UnpackedFloat.div .binary64 u u') := by
  obtain ⟨m, e, hm, rfl, -, rfl⟩ := h
  obtain ⟨m', e', hm', rfl, -, rfl⟩ := h'
  exact Rounding.isNearest_div hm hm'

theorem exactly_of_scaled {m k v : ℕ} {e : ℤ} (hm : 0 < m) (hbits : 2 ^ 52 ≤ m)
    (he : e = (k : ℤ) - 52) (hvalue : v * 2 ^ 52 = m * 2 ^ k) :
    Exactly (.finite .positive m e hm) v := by
  refine ⟨m, e, hm, rfl, hbits, ?_⟩
  have hq : (v * 2 ^ 52 : ℚ) = m * 2 ^ k := by exact_mod_cast hvalue
  rw [he, zpow_sub₀ two_ne_zero, zpow_natCast, ← mul_div_assoc, ← hq]
  exact (mul_div_cancel_right₀ _ (by positivity)).symm

theorem Holds.exactly {u : UnpackedFloat} {n : ℕ} (h : Holds u n) (hn : n ≠ 0) : Exactly u n := by
  generalize hv : (n : ℤ) = v at h
  cases h with
  | zero s => omega
  | @finite s m k v e hm low high exponent value small =>
    cases s with
    | negative =>
      change (n : ℤ) = -v at hv
      omega
    | positive =>
      obtain rfl : n = v := Int.ofNat_inj.mp hv
      exact exactly_of_scaled hm low exponent value

theorem exactly_natural {n : ℕ} (hn : n ≠ 0) (h : n < 2 ^ 53) :
    Exactly n.toUInt64.toFloat.toModel.unpack n := by
  have hu := holds_ofUInt64 h
  change Exactly (Float.Model.pack (UnpackedFloat.ofUInt64 .binary64 n.toUInt64)).unpack n
  rw [hu.unpack_pack]
  exact hu.exactly hn

/-- Checks that the double is this power of ten. -/
def isPowerOfTen (k : ℕ) : UnpackedFloat → Bool
  | .finite .positive m e _ =>
    2 ^ 52 ≤ m && -52 ≤ e && 10 ^ k * 2 ^ 52 == m * 2 ^ (e + 52).toNat
  | _ => false

/-- The powers of ten up to the twenty-second are doubles. -/
theorem isPowerOfTen_table : ∀ k : Fin Float.exactlyRepresentablePowersOfTen.size,
    isPowerOfTen k (Float.exactlyRepresentablePowersOfTen[k]).toModel.unpack := by
  decide +kernel

theorem exactly_power {k : ℕ} (hk : k < Float.exactlyRepresentablePowersOfTen.size) :
    Exactly (Float.exactlyRepresentablePowersOfTen[k]).toModel.unpack (10 ^ k) := by
  have h := isPowerOfTen_table ⟨k, hk⟩
  change isPowerOfTen k (Float.exactlyRepresentablePowersOfTen[k]).toModel.unpack at h
  generalize (Float.exactlyRepresentablePowersOfTen[k]).toModel.unpack = u at h
  cases u with
  | finite s m e hm =>
    cases s with
    | positive =>
      change (decide (2 ^ 52 ≤ m) && decide (-52 ≤ e) &&
        10 ^ k * 2 ^ 52 == m * 2 ^ (e + 52).toNat) = true at h
      simp only [Bool.and_eq_true, decide_eq_true_eq, beq_iff_eq] at h
      obtain ⟨⟨hbits, he⟩, hvalue⟩ := h
      have hexact := exactly_of_scaled hm hbits (by omega : e = ((e + 52).toNat : ℤ) - 52) hvalue
      rw [Nat.cast_pow, Nat.cast_ofNat] at hexact
      exact hexact
    | negative => exact absurd h Bool.false_ne_true
  | _ => exact absurd h Bool.false_ne_true

/-- A short decimal is a product or a quotient of two doubles; the others are the general case. -/
theorem exists_ofScientific {n : ℕ} {e : ℤ} (hn : n ≠ 0) (hhigh : e ≤ 2048)
    (hlow : -(2048 + (n.log2 : ℤ)) ≤ e) :
    ∃ u, IsNearest (n * 10 ^ e) u ∧
      Float.ofScientific n (e < 0) e.natAbs = .ofModel (Float.Model.pack u) := by
  by_cases hshort : n < 2 ^ 53 ∧ e.natAbs ≤ 22
  · have hnumber := exactly_natural hn hshort.1
    have hk : e.natAbs < Float.exactlyRepresentablePowersOfTen.size := Nat.lt_succ_of_le hshort.2
    have hpower := exactly_power hk
    by_cases he : e < 0
    · have hvalue : (n * 10 ^ e : ℚ) = n / 10 ^ e.natAbs := by
        rw [← zpow_natCast, Int.ofNat_natAbs_of_nonpos he.le, zpow_neg, div_inv_eq_mul]
      refine ⟨_, hvalue ▸ hnumber.isNearest_div hpower, ?_⟩
      rw [Float.ofScientific, dif_pos hshort, if_pos (decide_eq_true he)]
      rfl
    · have hvalue : (n * 10 ^ e : ℚ) = n * 10 ^ e.natAbs := by
        rw [← zpow_natCast, Int.natAbs_of_nonneg (not_lt.mp he)]
      refine ⟨_, hvalue ▸ hnumber.isNearest_mul hpower, ?_⟩
      rw [Float.ofScientific, dif_pos hshort, if_neg (by simpa using he)]
      rfl
  · refine ⟨_, isNearest_ofScientific hn hhigh hlow, ?_⟩
    have hsigned : (if decide (e < 0) then Int.negOfNat e.natAbs else Int.ofNat e.natAbs) = e := by
      rw [Int.negOfNat_eq, Int.ofNat_eq_natCast]
      by_cases he : e < 0
      · rw [if_pos (decide_eq_true he), Int.ofNat_natAbs_of_nonpos he.le, neg_neg]
      · rw [if_neg (by simpa using he), Int.natAbs_of_nonneg (not_lt.mp he)]
    rw [Float.ofScientific, dif_neg hshort, hsigned]
    rfl

end Rounding

namespace Decimal

open Float.Model Rounding

theorem lt_pow_digitCount (n : ℕ) : n < 10 ^ digitCount n :=
  (Nat.length_toDigits_le_iff (by decide) Nat.length_toDigits_pos).mp le_rfl

theorem pow_digitCount_le {n : ℕ} (hn : n ≠ 0) : 10 ^ (digitCount n - 1) ≤ n := by
  by_contra hlt
  have hk : 0 < digitCount n - 1 := Nat.pos_of_ne_zero fun h0 => by
    rw [h0] at hlt
    omega
  have hle : digitCount n ≤ digitCount n - 1 :=
    (Nat.length_toDigits_le_iff (by decide) hk).mpr (not_le.mp hlt)
  omega

theorem digitCount_le_log2 (n : ℕ) : digitCount n ≤ n.log2 + 1 := by
  refine (Nat.length_toDigits_le_iff (by decide) (Nat.succ_pos _)).mpr ?_
  exact Nat.lt_log2_self.trans_le (Nat.pow_le_pow_left (by decide) _)

variable (d : Decimal)

/-- The number that the decimal stands for. -/
def value : ℚ := d.digits * 10 ^ d.exponent

theorem value_nonneg : 0 ≤ d.value := by
  unfold value
  positivity

theorem value_lt : d.value < 10 ^ (digitCount d.digits + d.exponent) := by
  have hlt : (d.digits : ℚ) < 10 ^ digitCount d.digits := by exact_mod_cast lt_pow_digitCount d.digits
  rw [value, zpow_add₀ (by norm_num), zpow_natCast]
  gcongr

theorem le_value (h : d.digits ≠ 0) : 10 ^ (digitCount d.digits + d.exponent - 1) ≤ d.value := by
  have hle : (10 ^ (digitCount d.digits - 1) : ℚ) ≤ d.digits := by
    exact_mod_cast pow_digitCount_le h
  have hcount : 0 < digitCount d.digits := Nat.length_toDigits_pos
  have hplace : (digitCount d.digits + d.exponent - 1 : ℤ) =
      (digitCount d.digits - 1 : ℕ) + d.exponent := by omega
  rw [value, hplace, zpow_add₀ (by norm_num), zpow_natCast]
  gcongr

/-- Far below the least double zero is the nearest. -/
theorem nearest_zero {x : ℚ} (h0 : 0 ≤ x) (h : x < 10 ^ (-330 : ℤ)) : Nearest x 0 (-1074) := by
  have hpow : (2 ^ 1075 : ℚ) ≤ 10 ^ 330 := by exact_mod_cast (by decide +kernel : 2 ^ 1075 ≤ 10 ^ 330)
  have hunit : (10 : ℚ) ^ (-330 : ℤ) ≤ 2 ^ (-1075 : ℤ) := by
    rw [zpow_neg, zpow_neg]
    exact inv_anti₀ (by positivity) hpow
  have hhalf : (2 : ℚ) ^ (-1075 : ℤ) = 1 / 2 * 2 ^ (-1074 : ℤ) := by
    rw [one_div, mul_comm, ← zpow_sub_one₀ two_ne_zero]
    norm_num
  refine nearest_of_rounded (Or.inr rfl) (rounded_of_lt ?_)
  rw [Nat.cast_zero, sub_zero, abs_of_nonneg (by positivity), div_lt_iff₀ (by positivity), ← hhalf]
  exact h.trans_le hunit

/-- Beyond the format the nearest double has too large an exponent. -/
theorem lt_exponent {x : ℚ} {m : ℕ} {e : ℤ} (h : Nearest x m e) (hm : m < 2 ^ 53)
    (hx : 10 ^ (310 : ℤ) ≤ x) : 971 < e := by
  by_contra he
  -- The first power of two beyond the format would be nearer.
  have hpow : (2 ^ 1024 : ℚ) ≤ 10 ^ 310 := by exact_mod_cast (by decide +kernel : 2 ^ 1024 ≤ 10 ^ 310)
  have hbound : (2 : ℚ) ^ 52 * 2 ^ (972 : ℤ) = 2 ^ 1024 := by
    rw [← zpow_natCast, ← zpow_natCast, ← zpow_add₀ two_ne_zero]
    norm_num
  have hlt := lt_of_exponent_lt hm (by omega : e < 972)
  have hdouble : IsDouble (2 ^ 52 * 2 ^ (972 : ℤ)) := ⟨2 ^ 52, 972, by decide, by decide, by norm_num⟩
  have hnear := (h _ hdouble).1
  have hle : (2 : ℚ) ^ 52 * 2 ^ (972 : ℤ) ≤ x := (hbound.trans_le hpow).trans hx
  rw [abs_of_pos (sub_pos.mpr (hlt.trans_le hle)), abs_of_nonneg (sub_nonneg.mpr hle)] at hnear
  linarith

/-- A decimal reads as the nearest double, and as infinity if that one is beyond the format. -/
theorem exists_toFloat : ∃ m e, Canonical m e ∧ Nearest d.value m e ∧
    d.toFloat = .ofModel (Float.Model.pack (parts .positive m e)) := by
  unfold toFloat
  by_cases hsmall : d.digits = 0 ∨ digitCount d.digits + d.exponent < -330
  · have hx : d.value < 10 ^ (-330 : ℤ) := by
      rcases hsmall with h0 | hplace
      · rw [value, h0, Nat.cast_zero, zero_mul]
        positivity
      · exact d.value_lt.trans_le (zpow_le_zpow_right₀ (by norm_num) hplace.le)
    refine ⟨0, -1074, ⟨by decide, le_rfl, Or.inr rfl⟩, nearest_zero d.value_nonneg hx, ?_⟩
    simp only [if_pos hsmall]
    rfl
  obtain ⟨hdigits, hplace⟩ := not_or.mp hsmall
  by_cases hlarge : 310 < digitCount d.digits + d.exponent
  · obtain ⟨m, e, hcanonical, hnear, -⟩ := isNearest_scaled (Nat.pos_of_ne_zero hdigits) d.exponent
    have hx : 10 ^ (310 : ℤ) ≤ d.value :=
      (zpow_le_zpow_right₀ (by norm_num) (by omega)).trans (d.le_value hdigits)
    have he := lt_exponent hnear hcanonical.small hx
    refine ⟨m, e, hcanonical, hnear, ?_⟩
    simp only [if_neg hsmall, if_pos hlarge]
    rw [hcanonical.pack_infinite he .positive]
    rfl
  · have hcount := digitCount_le_log2 d.digits
    obtain ⟨u, ⟨m, e, hcanonical, hnear, rfl⟩, hfloat⟩ :=
      exists_ofScientific (e := d.exponent) hdigits (by omega) (by omega)
    refine ⟨m, e, hcanonical, hnear, ?_⟩
    simp only [if_neg hsmall, if_neg hlarge]
    exact hfloat

end Decimal

open Rounding

/-- The double nearest to a number that is not negative, with a sign in front. It is infinite where
the nearest needs a larger exponent than the format has. -/
def Binary.NearestTo (b : Binary) (negative : Bool) (x : ℚ) : Prop :=
  ∃ m e, Canonical m e ∧ Nearest x m e ∧
    b = if e ≤ 971 then .finite negative m e else .infinite negative

theorem Decimal.toFloat_nearest (d : Decimal) : (Binary.ofFloat d.toFloat).NearestTo false d.value := by
  obtain ⟨m, e, hcanonical, hnear, hfloat⟩ := d.exists_toFloat
  refine ⟨m, e, hcanonical, hnear, ?_⟩
  rw [hfloat]
  exact hcanonical.ofFloat_pack false

theorem Decimal.neg_toFloat_nearest (d : Decimal) :
    (Binary.ofFloat (-d.toFloat)).NearestTo true d.value := by
  obtain ⟨m, e, hcanonical, hnear, hfloat⟩ := d.exists_toFloat
  refine ⟨m, e, hcanonical, hnear, ?_⟩
  rw [hfloat]
  change Binary.ofFloat (.ofModel (Float.Model.pack
    (Float.Model.pack (parts .positive m e)).unpack.neg)) = _
  by_cases he : e ≤ 971
  · have hneg : (parts .positive m e).neg = parts .negative m e := by
      by_cases h0 : m = 0
      · rw [parts, parts, dif_pos h0, dif_pos h0]
        rfl
      · rw [parts, parts, dif_neg h0, dif_neg h0]
        rfl
    rw [hcanonical.unpack_pack he, hneg]
    exact hcanonical.ofFloat_pack true
  · rw [if_neg he, hcanonical.pack_infinite (not_le.mp he)]
    rfl

theorem Decimal.signed_toFloat_nearest (d : Decimal) (minus : Prop) [Decidable minus] :
    (Binary.ofFloat (if minus then -d.toFloat else d.toFloat)).NearestTo minus d.value := by
  by_cases hs : minus
  · rw [if_pos hs, decide_eq_true hs]
    exact d.neg_toFloat_nearest
  · rw [if_neg hs, decide_eq_false hs]
    exact d.toFloat_nearest

/-- A numeral with a fraction or an exponent reads as the double nearest to its decimal. -/
theorem Numeral.value_nearest {n : Numeral} {x : Float} (h : n.value = some (.float x)) :
    (Binary.ofFloat x).NearestTo (n.sign = ['-']) n.decimal.value := by
  by_cases hn : n.fraction = [] ∧ n.exponent = []
  · rw [Numeral.value, if_pos hn] at h
    dsimp only at h
    split at h <;> simp at h
  · rw [Numeral.value, if_neg hn, Option.some.injEq, Atom.float.injEq] at h
    subst h
    exact n.decimal.signed_toFloat_nearest _

/-- The same of a number as the grammar has it. -/
theorem Lexicon.Number.Means.nearest {n : Lexicon.Number} {x : Float} (h : n.Means (.float x)) :
    (Binary.ofFloat x).NearestTo (n.sign.text = ['-'])
      (Nat.ofDigitChars 10 (n.whole.chars ++ n.places) 0 * 10 ^ (n.power - n.places.length)) := by
  obtain ⟨-, rfl⟩ := h
  rw [n.sign.apply_eq]
  exact Decimal.signed_toFloat_nearest _ _

end Lisplet
