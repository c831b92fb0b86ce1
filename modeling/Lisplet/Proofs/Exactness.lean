import Mathlib.Algebra.Order.Ring.Int
import Mathlib.Tactic.Ring
import Lisplet.Proofs.Discipline

/-! Arithmetic on integers of 64 bits against arithmetic without bounds. Arguments are taken in from the
left, and as long as each step can be taken the accumulator is the exact result so far. The first step
that cannot be taken ends the call with a fault, whatever would have come after it. -/

namespace Lisplet

/-- The operations that stay among the integers. -/
inductive Integral where
  | add
  | sub
  | mul
  | rem
  deriving DecidableEq

namespace Integral

def arithmetic : Integral → Arithmetic
  | .add => .add
  | .sub => .sub
  | .mul => .mul
  | .rem => .rem

/-- The operation without bounds. The modulus is floored, so it has the sign of the divisor. -/
def exact : Integral → Int → Int → Int
  | .add => (· + ·)
  | .sub => (· - ·)
  | .mul => (· * ·)
  | .rem => Int.fmod

/-- The number is one of 64 bits. -/
def Fits (n : Int) : Prop := Int64.minValue.toInt ≤ n ∧ n ≤ Int64.maxValue.toInt

instance : DecidablePred Fits := fun n =>
  inferInstanceAs (Decidable (Int64.minValue.toInt ≤ n ∧ n ≤ Int64.maxValue.toInt))

/-- The step from `acc` with the argument `b` can be taken. A modulus needs a divisor, and a quotient
of 64 bits too. -/
structure Admits (op : Integral) (acc b : Int) : Prop where
  fits : Fits (op.exact acc b)
  divisor : op = .rem → b ≠ 0
  quotient : op = .rem → ¬(acc = Int64.minValue.toInt ∧ b = -1)

/-- The fault of a step that cannot be taken. -/
def fault (op : Integral) (b : Int) : Fault :=
  if op = .rem ∧ b = 0 then Number.moduloByZero else Number.overflow op.arithmetic.name

/-- The exact result after some arguments. -/
def total (op : Integral) (acc : Int) (bs : List Int64) : Int :=
  bs.foldl (fun acc b => op.exact acc b.toInt) acc

/-- Every step can be taken from where the steps before it lead. -/
def Clear (op : Integral) (acc : Int) (bs : List Int64) : Prop :=
  ∀ before b after, bs = before ++ b :: after → op.Admits (op.total acc before) b.toInt

/-- What the arguments come to: the exact result, or the fault of the first step that cannot be
taken. -/
inductive ComesTo (op : Integral) (acc : Int) (bs : List Int64) : Except Fault Int64 → Prop where
  | exact {n} : op.Clear acc bs → n.toInt = op.total acc bs → op.ComesTo acc bs (.ok n)
  | fault (before) {b after} : bs = before ++ b :: after → op.Clear acc before →
      ¬op.Admits (op.total acc before) b.toInt → op.ComesTo acc bs (.error (op.fault b.toInt))

theorem kind_fault (op : Integral) (b : Int) : (op.fault b).kind = .hostFault := by
  unfold fault
  split <;> rfl

theorem fits_toInt (n : Int64) : Fits n.toInt := ⟨n.minValue_le_toInt, n.toInt_le⟩

theorem Fits.toInt_ofInt {n : Int} (h : Fits n) : (Int64.ofInt n).toInt = n := by
  obtain ⟨hlow, hhigh⟩ := h
  rw [Int64.toInt_minValue] at hlow
  rw [Int64.toInt_maxValue] at hhigh
  exact Int64.toInt_ofInt_of_le hlow (by omega)

/-- A number between two that fit. -/
theorem Fits.between {a b n : Int} (ha : Fits a) (hb : Fits b) (hn : a ≤ n ∧ n ≤ b) : Fits n :=
  ⟨Int.le_trans ha.1 hn.1, Int.le_trans hn.2 hb.2⟩

/-- The remainder towards zero has the sign of the dividend. -/
theorem tmod_nonpos {a : Int} (h : a ≤ 0) (b : Int) : a.tmod b ≤ 0 := by
  have hn : 0 ≤ (-a).tmod b := Int.tmod_nonneg b (by omega)
  rw [Int.neg_tmod] at hn
  omega

/-- The floored modulus is the remainder towards zero, moved by the divisor where their signs
differ. -/
theorem fmod_eq_moved (a b : Int) : a.fmod b =
    if a.tmod b ≠ 0 ∧ decide (a.tmod b < 0) ≠ decide (b < 0) then a.tmod b + b else a.tmod b := by
  rw [Int.fmod_eq_tmod]
  by_cases hz : a.tmod b = 0
  · simp [hz, Int.dvd_iff_tmod_eq_zero.mpr hz]
  rw [if_neg (mt Int.dvd_iff_tmod_eq_zero.mp hz)]
  rcases Int.le_total 0 a with ha | ha
  · have hr : ¬a.tmod b < 0 := Int.not_lt.mpr (Int.tmod_nonneg b ha)
    by_cases hneg : b < 0
    · simp [hz, hr, hneg, ha]
    · simp [hz, hr, hneg, ha, Int.not_lt.mp hneg]
  · have hne : ¬0 ≤ a := by
      intro h
      obtain rfl : a = 0 := Int.le_antisymm ha h
      exact hz (Int.zero_tmod b)
    have hr : a.tmod b < 0 := lt_of_le_of_ne (tmod_nonpos ha b) hz
    by_cases hneg : b < 0
    · have hb : b.toNat = 0 := Int.toNat_of_nonpos (Int.le_of_lt hneg)
      simp [hz, hr, hneg, hne, hb]
    · have hb : (b.natAbs : Int) = b := Int.natAbs_of_nonneg (Int.not_lt.mp hneg)
      simp [hz, hr, hneg, hne, hb, Int.not_lt.mp hneg]

/-- Moving a remainder by a divisor of the other sign leads to a number between the two. -/
theorem toInt_moved {a b : Int64} (h : decide (a % b < 0) ≠ decide (b < 0)) :
    (a % b + b).toInt = (a % b).toInt + b.toInt := by
  have hfits : Fits ((a % b).toInt + b.toInt) := by
    by_cases hr : a % b < 0
    · have hb : ¬b < 0 := by
        intro hb
        simp [hr, hb] at h
      rw [Int64.lt_iff_toInt_lt, Int64.toInt_zero] at hr hb
      exact (fits_toInt (a % b)).between (fits_toInt b) (by omega)
    · have hb : b < 0 := by
        by_contra hb
        simp [hr, hb] at h
      rw [Int64.lt_iff_toInt_lt, Int64.toInt_zero] at hr hb
      exact (fits_toInt b).between (fits_toInt (a % b)) (by omega)
  calc (a % b + b).toInt = (Int64.ofInt ((a % b).toInt + b.toInt)).toInt := by
        rw [Int64.ofInt_add, Int64.ofInt_toInt, Int64.ofInt_toInt]
    _ = (a % b).toInt + b.toInt := hfits.toInt_ofInt

theorem toInt_floorInt (a b : Int64) : (Number.floorInt a b).toInt = a.toInt.fmod b.toInt := by
  rw [fmod_eq_moved]
  unfold Number.floorInt
  have hzero : a % b = 0 ↔ a.toInt.tmod b.toInt = 0 := by
    rw [← Int64.toInt_inj, Int64.toInt_mod, Int64.toInt_zero]
  have hneg (n : Int64) : decide (n < 0) = decide (n.toInt < 0) := by
    rw [decide_eq_decide, Int64.lt_iff_toInt_lt, Int64.toInt_zero]
  by_cases h : a % b ≠ 0 ∧ decide (a % b < 0) ≠ decide (b < 0)
  · rw [if_pos h, toInt_moved h.2, Int64.toInt_mod, if_pos]
    rwa [ne_eq, hzero, hneg, hneg, Int64.toInt_mod] at h
  · rw [if_neg h, Int64.toInt_mod, if_neg]
    rwa [ne_eq, hzero, hneg, hneg, Int64.toInt_mod] at h

theorem fits_fmod (a b : Int64) : Fits (a.toInt.fmod b.toInt) := by
  rw [← toInt_floorInt]
  exact fits_toInt _

theorem fit_of_fits {n : Int} (h : Fits n) (name : Name) :
    Number.fit name n = .ok (.int (Int64.ofInt n)) := if_pos h

theorem fit_of_not_fits {n : Int} (h : ¬Fits n) (name : Name) :
    Number.fit name n = .error (Number.overflow name) := if_neg h

variable {op : Integral} {a b : Int64}

/-- The step is taken exactly. -/
theorem apply_of_admits (h : op.Admits a.toInt b.toInt) :
    ∃ n : Int64, n.toInt = op.exact a.toInt b.toInt ∧
      Number.apply op.arithmetic (.int a) (.int b) = .ok (.int n) := by
  cases op with
  | rem =>
    have hb : b ≠ 0 := by
      rintro rfl
      exact h.divisor rfl Int64.toInt_zero
    have hq : ¬(a = Int64.minValue ∧ b = -1) := by
      rintro ⟨rfl, rfl⟩
      exact h.quotient rfl ⟨rfl, rfl⟩
    refine ⟨Number.floorInt a b, toInt_floorInt a b, ?_⟩
    have hz : (Number.int b).isZero = false := by simpa [Number.isZero] using hb
    simp only [arithmetic, Number.apply, Number.rem, hz, Bool.false_eq_true, ↓reduceIte, if_neg hq]
  | _ => exact ⟨_, h.fits.toInt_ofInt, fit_of_fits h.fits _⟩

theorem apply_of_not_admits (h : ¬op.Admits a.toInt b.toInt) :
    Number.apply op.arithmetic (.int a) (.int b) = .error (op.fault b.toInt) := by
  cases op with
  | rem =>
    by_cases hb : b = 0
    · subst hb
      rfl
    · -- The modulus itself would fit, so it is the quotient that does not.
      have hq : a = Int64.minValue ∧ b = -1 := by
        by_contra hq
        refine h ⟨fits_fmod a b, fun _ hz => hb (Int64.toInt_inj.mp hz), fun _ he => hq ?_⟩
        exact ⟨Int64.toInt_inj.mp he.1, Int64.toInt_inj.mp he.2⟩
      obtain ⟨rfl, rfl⟩ := hq
      rfl
  | _ => exact fit_of_not_fits (fun hf => h ⟨hf, nofun, nofun⟩) _

variable {acc : Int} {bs : List Int64}

theorem total_cons (op : Integral) (acc : Int) (b : Int64) (bs : List Int64) :
    op.total acc (b :: bs) = op.total (op.exact acc b.toInt) bs := List.foldl_cons

theorem clear_nil (op : Integral) (acc : Int) : op.Clear acc [] := by
  intro before b after h
  simp at h

theorem Clear.cons (hb : op.Admits acc b.toInt) (h : op.Clear (op.exact acc b.toInt) bs) :
    op.Clear acc (b :: bs) := by
  intro before c after hc
  cases before with
  | nil =>
    obtain ⟨rfl, -⟩ := List.cons.inj hc
    exact hb
  | cons d before =>
    obtain ⟨rfl, hrest⟩ := List.cons.inj hc
    rw [total_cons]
    exact h before c after hrest

theorem ComesTo.cons {r : Except Fault Int64} (hb : op.Admits acc b.toInt)
    (h : op.ComesTo (op.exact acc b.toInt) bs r) : op.ComesTo acc (b :: bs) r := by
  cases h with
  | exact hclear hn => exact .exact (hclear.cons hb) (by rw [total_cons, hn])
  | fault before hbs hclear hc =>
    refine .fault (b :: before) (by rw [hbs, List.cons_append]) (hclear.cons hb) ?_
    rwa [total_cons]

/-- The accumulator is the exact result so far until a step cannot be taken. -/
theorem exists_fold (op : Integral) (a : Int64) (bs : List Int64) :
    ∃ r, op.ComesTo a.toInt bs r ∧
      Number.fold op.arithmetic (.int a) (bs.map .int) = r.map .int := by
  induction bs generalizing a with
  | nil => exact ⟨.ok a, .exact (clear_nil op _) rfl, rfl⟩
  | cons b bs ih =>
    have hstep : Number.fold op.arithmetic (.int a) ((b :: bs).map .int) =
        Number.apply op.arithmetic (.int a) (.int b) >>= fun next =>
          Number.fold op.arithmetic next (bs.map .int) := rfl
    by_cases hb : op.Admits a.toInt b.toInt
    · obtain ⟨n, hn, happly⟩ := apply_of_admits hb
      obtain ⟨r, hr, hfold⟩ := ih n
      rw [hn] at hr
      exact ⟨r, hr.cons hb, by rw [hstep, happly]; exact hfold⟩
    · refine ⟨.error (op.fault b.toInt), ?_, ?_⟩
      · exact .fault [] rfl (clear_nil op _) hb
      · rw [hstep, apply_of_not_admits hb]
        rfl

end Integral

/-- A builtin of arithmetic given integers folds them. -/
theorem Builtin.call_integers (op : Arithmetic) (evaluate : Value → Eval Value) (a : Int64)
    (bs : List Int64) : (ofArithmetic op).call evaluate ((a :: bs).map .int) =
      pure (.ofExcept ((Number.fold op (.int a) (bs.map .int)).map Number.value)) := by
  have hfaults : Value.firstFault? ((a :: bs).map .int) = none := by
    rw [Value.firstFault?_eq_none]
    intro v hv
    obtain ⟨n, -, rfl⟩ := List.mem_map.mp hv
    rfl
  have hcount : (Builtin.ofArithmetic op).arity.accepts ((a :: bs).map Value.int).length = true := by
    simp [ofArithmetic, Arity.accepts]
  rw [call, hfaults]
  simp only [hcount, ↓reduceIte]
  change pure (Value.ofExcept (Number.fold op (.int a) (bs.map .int) >>= _)) = _
  cases Number.fold op (.int a) (bs.map .int) <;> rfl

/-- Sum, difference, product and modulus of integers are exact or a fault of the host, which is that of
the first step from the left that cannot be taken. The number by which a remainder is moved to the sign
of the divisor never takes it out of range. -/
theorem Integral.exact_or_host_fault (op : Integral) (evaluate : Value → Eval Value) (a : Int64)
    (bs : List Int64) :
    (∃ r, op.ComesTo a.toInt bs r ∧ (∀ fault, r = .error fault → fault.kind = .hostFault) ∧
      (Builtin.ofArithmetic op.arithmetic).call evaluate ((a :: bs).map .int) =
        pure (.ofExcept (r.map .int))) ∧
    ∀ c d : Int64, decide (c % d < 0) ≠ decide (d < 0) →
      (c % d + d).toInt = (c % d).toInt + d.toInt := by
  refine ⟨?_, fun c d => toInt_moved⟩
  obtain ⟨r, hr, hfold⟩ := op.exists_fold a bs
  refine ⟨r, hr, ?_, ?_⟩
  · rintro fault rfl
    cases hr with
    | fault => exact op.kind_fault _
  · rw [Builtin.call_integers, hfold]
    cases r <;> rfl

/-- A sum that leaves the range is a fault although the next argument would lead back, and the least
integer is moved by the greatest. -/
theorem Integral.exact_or_host_fault_at_limits :
    ∃ (evaluate : Value → Eval Value) (low high : Int64),
      low.toInt = Int64.minValue.toInt ∧ high.toInt = Int64.maxValue.toInt ∧
      (Builtin.ofArithmetic .add).call evaluate [.int high, .int 1, .int (-1)] =
        pure (.error (Number.overflow "+")) ∧
      decide (low % high < 0) ≠ decide (high < 0) ∧
      (low % high + high).toInt = (low % high).toInt + high.toInt := by
  let evaluate : Value → Eval Value := fun _ => Eval.exhausted
  have hmoved : decide (Int64.minValue % Int64.maxValue < 0) ≠ decide (Int64.maxValue < 0) := by
    decide
  obtain ⟨⟨r, hr, -, hcall⟩, hexact⟩ := exact_or_host_fault .add evaluate Int64.maxValue [1, -1]
  have hstuck : ¬Integral.add.Admits Int64.maxValue.toInt (1 : Int64).toInt := by
    intro h
    exact absurd h.fits (by decide)
  have hover : r = .error (Number.overflow "+") := by
    cases hr with
    | exact hclear _ => exact (hstuck (hclear [] 1 [-1] rfl)).elim
    | fault before hbs hclear _ =>
      cases before with
      | nil =>
        obtain ⟨rfl, -⟩ := List.cons.inj hbs
        rfl
      | cons c before =>
        obtain ⟨rfl, -⟩ := List.cons.inj hbs
        exact (hstuck (hclear [] _ before rfl)).elim
  rw [hover] at hcall
  exact ⟨evaluate, _, _, rfl, rfl, hcall, hmoved, hexact _ _ hmoved⟩

end Lisplet
