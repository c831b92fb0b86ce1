import Mathlib.Algebra.Order.Ring.Int
import Mathlib.Data.String.Basic
import Lisplet.Proofs.Occurrence
import Lisplet.Proofs.Rounding

/-! Equality of values. Doubles other than NaN are equal if they are the same up to the sign of zero,
and values look the same if their atoms do, so looking the same is an equivalence. The language's
equality also lets an integer equal its double, and there transitivity can fail: two integers may
round to one double, which equals both of them. -/

namespace Lisplet

namespace Rounding

open Float.Model Float.Model.UnpackedFloat

/-- A double without the sign of a zero. -/
def unsigned : UnpackedFloat → UnpackedFloat
  | .zero _ => .zero .positive
  | u => u

theorem isNaN_eq_false {u : UnpackedFloat} : u.isNaN = false ↔ u ≠ .notANumber := by
  cases u with
  | notANumber => exact iff_of_false Bool.true_eq_false.mp fun h => h rfl
  | _ =>
    refine iff_of_true rfl ?_
    intro h
    cases h

theorem compare_finite_eq {s s' : Sign} {m m' : Nat} {e e' : Int} {hm : 0 < m} {hm' : 0 < m'} :
    (UnpackedFloat.finite s m e hm).compare (.finite s' m' e' hm') = some .eq ↔
      s = s' ∧ m = m' ∧ e = e' := by
  cases s <;> cases s' <;> change some _ = some _ ↔ _ <;> simp [and_comm]

theorem beq_unpacked_iff {u w : UnpackedFloat} :
    u.beq w = true ↔ u.isNaN = false ∧ unsigned u = unsigned w := by
  have unlike {p q r : Prop} (hp : ¬ p) (hr : ¬ r) : p ↔ q ∧ r := iff_of_false hp fun h => hr h.2
  change (u.compare w == some .eq) = true ↔ _
  rw [beq_iff_eq, isNaN_eq_false]
  cases u with
  | notANumber => exact iff_of_false (by intro h; cases h) fun h => h.1 rfl
  | infinity s =>
    cases w with
    | infinity s' =>
      cases s <;> cases s' <;> first
        | exact iff_of_true rfl ⟨(by intro h; cases h), rfl⟩
        | exact unlike (by intro h; cases h) (by intro h; cases h)
    | _ => cases s <;> exact unlike (by intro h; cases h) (by intro h; cases h)
  | zero s =>
    cases w with
    | zero s' => exact iff_of_true rfl ⟨(by intro h; cases h), rfl⟩
    | notANumber => exact unlike (by intro h; cases h) (by intro h; cases h)
    | infinity s' | finite s' => cases s' <;> exact unlike (by intro h; cases h) (by intro h; cases h)
  | finite s m e hm =>
    cases w with
    | notANumber => exact unlike (by intro h; cases h) (by intro h; cases h)
    | infinity s' => cases s' <;> exact unlike (by intro h; cases h) (by intro h; cases h)
    | zero s' => cases s <;> exact unlike (by intro h; cases h) (by intro h; cases h)
    | finite s' m' e' hm' =>
      have hn : UnpackedFloat.finite s m e hm ≠ .notANumber := by
        intro h
        cases h
      rw [compare_finite_eq, and_iff_right hn, unsigned, unsigned, UnpackedFloat.finite.injEq]
      all_goals
        intro t h
        cases h

theorem beq_iff {x y : Float} : (x == y) = true ↔
    x.isNaN = false ∧ unsigned x.toModel.unpack = unsigned y.toModel.unpack :=
  beq_unpacked_iff

theorem isNaN_unsigned (u : UnpackedFloat) : (unsigned u).isNaN = u.isNaN := by
  cases u <;> rfl

theorem beq_refl {x : Float} (h : x.isNaN = false) : (x == x) = true := beq_iff.mpr ⟨h, rfl⟩

theorem beq_symm {x y : Float} (h : (x == y) = true) : (y == x) = true := by
  obtain ⟨hx, he⟩ := beq_iff.mp h
  refine beq_iff.mpr ⟨?_, he.symm⟩
  have hu : y.toModel.unpack.isNaN = x.toModel.unpack.isNaN := by
    rw [← isNaN_unsigned, ← he, isNaN_unsigned]
  exact hu.trans hx

theorem beq_trans {x y z : Float} (h : (x == y) = true) (h' : (y == z) = true) : (x == z) = true := by
  obtain ⟨hx, he⟩ := beq_iff.mp h
  obtain ⟨-, he'⟩ := beq_iff.mp h'
  exact beq_iff.mpr ⟨hx, he.trans he'⟩

theorem Holds.isNaN {u : UnpackedFloat} {v : Int} (h : Holds u v) : u.isNaN = false := by
  cases h <;> rfl

/-- An integer value has one double, up to the sign of zero. -/
theorem Holds.unsigned_eq {u w : UnpackedFloat} {v : Int} (hu : Holds u v) (hw : Holds w v) :
    unsigned u = unsigned w := by
  generalize hx : v = x at hw
  have positive {m k v : Nat} (low : 2 ^ 52 ≤ m) (value : v * 2 ^ 52 = m * 2 ^ k) : 0 < v := by
    have hm : 0 < m * 2 ^ k := Nat.mul_pos (by omega) (Nat.two_pow_pos k)
    omega
  cases hu with
  | zero s =>
    cases hw with
    | zero s' => rfl
    | @finite s' m' k' v' e' hm' low' high' exponent' value' small' =>
      have hp' := positive low' value'
      cases s' <;> simp [Sign.apply] at hx <;> omega
  | @finite s m k v e hm low high exponent value small =>
    have hp := positive low value
    cases hw with
    | zero s' => cases s <;> simp [Sign.apply] at hx <;> omega
    | @finite s' m' k' v' e' hm' low' high' exponent' value' small' =>
      have hp' := positive low' value'
      obtain ⟨rfl, rfl⟩ : s = s' ∧ v = v' := by
        cases s <;> cases s' <;> simp [Sign.apply] at hx ⊢ <;> omega
      have hlt := scaled_lt k k' low high low' high'
      have hgt := scaled_lt k' k low' high' low high
      rw [← value, ← value'] at hlt hgt
      obtain ⟨rfl, rfl⟩ : m = m' ∧ e = e' := by omega
      rfl

theorem not_lt_of_beq {x y : Float} {v w : Int} (hx : Holds x.toModel.unpack v)
    (hy : Holds y.toModel.unpack w) (h : (x == y) = true) : ¬ v < w := by
  have he : x.toModel.unpack.compare y.toModel.unpack = some .eq := beq_iff_eq.mp h
  rw [← hx.lt_iff hy, UnpackedFloat.lt, he]
  decide

theorem floatOfInt_beq {a b : Int64} :
    (floatOfInt a == floatOfInt b) = true ↔ nearest a.toInt = nearest b.toInt := by
  have ha := holds_floatOfInt a
  have hb := holds_floatOfInt b
  constructor
  · intro h
    have hab : ¬ nearest a.toInt < nearest b.toInt := not_lt_of_beq ha hb h
    have hba : ¬ nearest b.toInt < nearest a.toInt := not_lt_of_beq hb ha (beq_symm h)
    omega
  · intro h
    rw [← h] at hb
    exact beq_iff.mpr ⟨ha.isNaN, ha.unsigned_eq hb⟩

end Rounding

namespace Value

open Rounding

/-- Two values that look the same are made in the same way, from parts that look the same. -/
inductive Alike : Value → Value → Prop where
  | int (n : Int64) : Alike (.int n) (.int n)
  | float {x y : Float} (h : (x == y) = true) : Alike (.float x) (.float y)
  | bool (b : Bool) : Alike (.bool b) (.bool b)
  | str (s : String) : Alike (.str s) (.str s)
  | sym (name : Name) : Alike (.sym name) (.sym name)
  | expr (mode mode' : Quoting) {xs ys : List Value} (cells : sameAll xs ys = true) :
      Alike (.expr mode xs) (.expr mode' ys)
  | lambda (formals : List Name) {v w : Value} {f g : List (Name × Value)}
      (body : v.same w = true) (captured : sameBindings f g = true) :
      Alike (.lambda formals v f) (.lambda formals w g)
  | define (name : Name) {v w : Value} (value : v.same w = true) :
      Alike (.define name v) (.define name w)
  | cond {a b c x y z : Value} (clause : a.same x = true) (yes : b.same y = true)
      (no : c.same z = true) : Alike (.cond a b c) (.cond x y z)
  | logic (op : Connective) {xs ys : List Value} (operands : sameAll xs ys = true) :
      Alike (.logic op xs) (.logic op ys)
  | builtin {a b : Builtin} (name : a.name = b.name) (arity : a.arity = b.arity) :
      Alike (.builtin a) (.builtin b)
  | seq {xs ys : List Value} (items : sameAll xs ys = true) : Alike (.seq xs) (.seq ys)
  | error (fault : Fault) : Alike (.error fault) (.error fault)
  | nothing : Alike .nothing .nothing

theorem same_iff_alike {a b : Value} : a.same b = true ↔ Alike a b := by
  constructor
  · intro h
    unfold same at h
    split at h
    · exact beq_iff_eq.mp h ▸ .int _
    · exact .float h
    · exact beq_iff_eq.mp h ▸ .bool _
    · exact beq_iff_eq.mp h ▸ .str _
    · exact beq_iff_eq.mp h ▸ .sym _
    · exact .expr _ _ h
    · simp only [Bool.and_eq_true, beq_iff_eq] at h
      obtain ⟨⟨rfl, hv⟩, hf⟩ := h
      exact .lambda _ hv hf
    · simp only [Bool.and_eq_true, beq_iff_eq] at h
      obtain ⟨rfl, hv⟩ := h
      exact .define _ hv
    · simp only [Bool.and_eq_true] at h
      exact .cond h.1.1 h.1.2 h.2
    · simp only [Bool.and_eq_true, beq_iff_eq] at h
      obtain ⟨rfl, hs⟩ := h
      exact .logic _ hs
    · simp only [Builtin.same, Bool.and_eq_true, beq_iff_eq] at h
      exact .builtin h.1 h.2
    · exact .seq h
    · exact beq_iff_eq.mp h ▸ .error _
    · exact .nothing
    · cases h
  · intro h
    cases h with
    | int | bool | str | sym | error => simp [same]
    | float h => exact h
    | expr _ _ h => exact h
    | lambda formals hv hf => simp [same, hv, hf]
    | define name hv => simp [same, hv]
    | cond ha hb hc => simp [same, ha, hb, hc]
    | logic op h => simp [same, h]
    | builtin hn ha => simp [same, Builtin.same, hn, ha]
    | seq h => exact h
    | nothing => rfl

/-- Every double but NaN equals itself. -/
def NotNaN : Value → Prop
  | .float x => x.isNaN = false
  | _ => True

mutual

theorem same_refl {v : Value} (h : v.Everywhere NotNaN) : v.same v = true := by
  rw [same_iff_alike]
  cases v with
  | int n => exact .int n
  | float x => exact .float (beq_refl h.here)
  | bool b => exact .bool b
  | str s => exact .str s
  | sym name => exact .sym name
  | expr mode cells => exact .expr mode mode (sameAll_refl (everywhere_expr.mp h).2)
  | lambda formals body captured =>
    obtain ⟨-, hb, hc⟩ := everywhere_lambda.mp h
    exact .lambda formals (same_refl hb) (sameBindings_refl hc)
  | define name value => exact .define name (same_refl (everywhere_define.mp h).2)
  | cond clause yes no =>
    obtain ⟨-, hc, hy, hn⟩ := everywhere_cond.mp h
    exact .cond (same_refl hc) (same_refl hy) (same_refl hn)
  | logic op operands => exact .logic op (sameAll_refl (everywhere_logic.mp h).2)
  | builtin b => exact .builtin rfl rfl
  | seq items => exact .seq (sameAll_refl (everywhere_seq.mp h).2)
  | error fault => exact .error fault
  | nothing => exact .nothing

theorem sameAll_refl {vs : List Value} (h : ∀ v ∈ vs, v.Everywhere NotNaN) :
    sameAll vs vs = true := by
  cases vs with
  | nil => rfl
  | cons v rest =>
    obtain ⟨hv, hr⟩ := List.forall_mem_cons.mp h
    rw [sameAll, same_refl hv, sameAll_refl hr, Bool.and_self]

theorem sameBindings_refl {bs : List (Name × Value)} (h : ∀ b ∈ bs, b.2.Everywhere NotNaN) :
    sameBindings bs bs = true := by
  match bs, h with
  | [], _ => rfl
  | (name, v) :: rest, h =>
    obtain ⟨hv, hr⟩ := List.forall_mem_cons.mp h
    simp [sameBindings, same_refl hv, sameBindings_refl hr]

end

mutual

theorem same_symm {a b : Value} (h : a.same b = true) : b.same a = true := by
  rw [same_iff_alike]
  cases same_iff_alike.mp h with
  | int n => exact .int n
  | float hx => exact .float (beq_symm hx)
  | bool b => exact .bool b
  | str s => exact .str s
  | sym name => exact .sym name
  | expr mode mode' hc => exact .expr mode' mode (sameAll_symm hc)
  | lambda formals hb hc => exact .lambda formals (same_symm hb) (sameBindings_symm hc)
  | define name hv => exact .define name (same_symm hv)
  | cond hc hy hn => exact .cond (same_symm hc) (same_symm hy) (same_symm hn)
  | logic op ho => exact .logic op (sameAll_symm ho)
  | builtin hn ha => exact .builtin hn.symm ha.symm
  | seq hi => exact .seq (sameAll_symm hi)
  | error fault => exact .error fault
  | nothing => exact .nothing

theorem sameAll_symm {xs ys : List Value} (h : sameAll xs ys = true) : sameAll ys xs = true := by
  match xs, ys, h with
  | [], [], _ => rfl
  | x :: xs, y :: ys, h =>
    obtain ⟨hx, hr⟩ := Bool.and_eq_true_iff.mp h
    rw [sameAll, same_symm hx, sameAll_symm hr, Bool.and_self]

theorem sameBindings_symm {xs ys : List (Name × Value)} (h : sameBindings xs ys = true) :
    sameBindings ys xs = true := by
  match xs, ys, h with
  | [], [], _ => rfl
  | (a, v) :: xs, (b, w) :: ys, h =>
    simp only [sameBindings, Bool.and_eq_true, beq_iff_eq] at h ⊢
    exact ⟨⟨h.1.1.symm, same_symm h.1.2⟩, sameBindings_symm h.2⟩

end

mutual

theorem same_trans {a b c : Value} (h : a.same b = true) (h' : b.same c = true) :
    a.same c = true := by
  rw [same_iff_alike] at h' ⊢
  cases same_iff_alike.mp h with
  | int | bool | str | sym | error | nothing => exact h'
  | float hx =>
    cases h' with
    | float hy => exact .float (beq_trans hx hy)
  | expr mode _ hx =>
    cases h' with
    | expr _ mode' hy => exact .expr mode mode' (sameAll_trans hx hy)
  | lambda formals hb hc =>
    cases h' with
    | lambda _ hb' hc' => exact .lambda formals (same_trans hb hb') (sameBindings_trans hc hc')
  | define name hv =>
    cases h' with
    | define _ hw => exact .define name (same_trans hv hw)
  | cond hc hy hn =>
    cases h' with
    | cond hc' hy' hn' => exact .cond (same_trans hc hc') (same_trans hy hy') (same_trans hn hn')
  | logic op hx =>
    cases h' with
    | logic _ hy => exact .logic op (sameAll_trans hx hy)
  | builtin hn ha =>
    cases h' with
    | builtin hn' ha' => exact .builtin (hn.trans hn') (ha.trans ha')
  | seq hx =>
    cases h' with
    | seq hy => exact .seq (sameAll_trans hx hy)
termination_by structural a

theorem sameAll_trans {xs ys zs : List Value} (h : sameAll xs ys = true)
    (h' : sameAll ys zs = true) : sameAll xs zs = true := by
  match xs, ys, h with
  | [], [], _ => exact h'
  | x :: xs, y :: ys, h =>
    match zs, h' with
    | z :: zs, h' =>
      obtain ⟨hx, hr⟩ := Bool.and_eq_true_iff.mp h
      obtain ⟨hy, hs⟩ := Bool.and_eq_true_iff.mp h'
      rw [sameAll, same_trans hx hy, sameAll_trans hr hs, Bool.and_self]
termination_by structural xs

theorem sameBindings_trans {xs ys zs : List (Name × Value)} (h : sameBindings xs ys = true)
    (h' : sameBindings ys zs = true) : sameBindings xs zs = true := by
  match xs, ys, h with
  | [], [], _ => exact h'
  | (a, v) :: xs, (b, w) :: ys, h =>
    match zs, h' with
    | (c, u) :: zs, h' =>
      simp only [sameBindings, Bool.and_eq_true, beq_iff_eq] at h h' ⊢
      exact ⟨⟨h.1.1.trans h'.1.1, same_trans h.1.2 h'.1.2⟩, sameBindings_trans h.2 h'.2⟩
termination_by structural xs

end

/-- Equality of values that are no lists: an integer and a double are compared as doubles. -/
def agrees : Value → Value → Bool
  | .int m, .float y => floatOfInt m == y
  | .float x, .int n => floatOfInt n == x
  | v, w => v.same w

/-- Lists are equal to lists only, cell by cell. -/
theorem equal_eq (a b : Value) : a.equal b =
    match a.cells?, b.cells? with
    | some xs, some ys => equalAll xs ys
    | none, none => a.agrees b
    | _, _ => false := by
  cases a <;> cases b <;> rfl

theorem equal_lists {a b : Value} {xs ys : List Value} (ha : a.cells? = some xs)
    (hb : b.cells? = some ys) : a.equal b = equalAll xs ys := by
  rw [equal_eq, ha, hb]

theorem equal_atoms {a b : Value} (ha : a.cells? = none) (hb : b.cells? = none) :
    a.equal b = a.agrees b := by
  rw [equal_eq, ha, hb]

/-- Two lists are equal if they are of one length and equal at every place. -/
theorem equalAll_iff {xs ys : List Value} : equalAll xs ys = true ↔ xs.length = ys.length ∧
    ∀ (i : Nat) (x y : Value), xs[i]? = some x → ys[i]? = some y → x.equal y = true := by
  induction xs generalizing ys with
  | nil => cases ys <;> simp [equalAll]
  | cons x xs ih =>
    cases ys with
    | nil => simp [equalAll]
    | cons y ys =>
      rw [equalAll, Bool.and_eq_true, ih]
      constructor
      · rintro ⟨hxy, hl, hr⟩
        refine ⟨congrArg Nat.succ hl, ?_⟩
        rintro (_ | i) u v hu hv
        · cases hu
          cases hv
          exact hxy
        · exact hr i u v hu hv
      · rintro ⟨hl, h⟩
        exact ⟨h 0 x y rfl rfl, Nat.succ.inj hl, fun i => h (i + 1)⟩

theorem equal_cases {a b : Value} (h : a.equal b = true) :
    (a.cells? = none ∧ b.cells? = none ∧ a.agrees b = true) ∨
    ∃ xs ys, a.cells? = some xs ∧ b.cells? = some ys ∧ xs.length = ys.length ∧
      ∀ (i : Nat) (x y : Value), xs[i]? = some x → ys[i]? = some y → x.equal y = true := by
  rw [equal_eq] at h
  split at h
  next xs ys ha hb => exact Or.inr ⟨xs, ys, ha, hb, equalAll_iff.mp h⟩
  next ha hb => exact Or.inl ⟨ha, hb, h⟩
  next => cases h

theorem sizeOf_lt_of_mem_cells {v c : Value} {cells : List Value} (h : v.cells? = some cells)
    (hc : c ∈ cells) : sizeOf c < sizeOf v := by
  have hm := List.sizeOf_lt_of_mem hc
  cases v with
  | expr mode xs =>
    cases h
    rw [expr.sizeOf_spec]
    omega
  | seq xs =>
    cases h
    rw [seq.sizeOf_spec]
    omega
  | _ => cases h

/-- Induction over lists of any depth. -/
theorem cells_induction {P : Value → Prop}
    (step : ∀ v, (∀ cells, v.cells? = some cells → ∀ c ∈ cells, P c) → P v) (v : Value) : P v :=
  step v fun _ _ c _ => cells_induction step c
termination_by sizeOf v
decreasing_by exact sizeOf_lt_of_mem_cells ‹_› ‹_›

theorem agrees_of_same {a b : Value} (h : a.same b = true) : a.agrees b = true := by
  unfold agrees
  split
  · cases h
  · cases h
  · exact h

theorem agrees_cases {a b : Value} (h : a.agrees b = true) : Alike a b ∨
    (∃ m y, a = .int m ∧ b = .float y ∧ (floatOfInt m == y) = true) ∨
    ∃ x n, a = .float x ∧ b = .int n ∧ (floatOfInt n == x) = true := by
  unfold agrees at h
  split at h
  · exact Or.inr (Or.inl ⟨_, _, rfl, rfl, h⟩)
  · exact Or.inr (Or.inr ⟨_, _, rfl, rfl, h⟩)
  · exact Or.inl (same_iff_alike.mp h)

theorem agrees_symm {a b : Value} (h : a.agrees b = true) : b.agrees a = true := by
  rcases agrees_cases h with h | ⟨m, y, rfl, rfl, h⟩ | ⟨x, n, rfl, rfl, h⟩
  · exact agrees_of_same (same_symm (same_iff_alike.mpr h))
  · exact h
  · exact h

theorem equal_refl {v : Value} (h : v.Everywhere NotNaN) : v.equal v = true := by
  induction v using cells_induction with
  | step v ih =>
    cases hc : v.cells? with
    | none =>
      rw [equal_atoms hc hc]
      exact agrees_of_same (same_refl h)
    | some cells =>
      rw [equal_lists hc hc, equalAll_iff]
      refine ⟨rfl, ?_⟩
      intro i x y hx hy
      obtain rfl : x = y := Option.some.inj (hx.symm.trans hy)
      have hm := List.mem_of_getElem? hx
      exact ih cells hc x hm (h.cells hc x hm)

theorem equal_symm {a b : Value} (h : a.equal b = true) : b.equal a = true := by
  induction a using cells_induction generalizing b with
  | step a ih =>
    rcases equal_cases h with ⟨ha, hb, h⟩ | ⟨xs, ys, ha, hb, hl, h⟩
    · rw [equal_atoms hb ha]
      exact agrees_symm h
    · rw [equal_lists hb ha, equalAll_iff]
      refine ⟨hl.symm, ?_⟩
      intro i y x hy hx
      exact ih xs ha x (List.mem_of_getElem? hx) (h i x y hx hy)

/-- Somewhere in three lists, at the same place, the first and the last have different integers and
the middle one has a double. -/
inductive Clash : Value → Value → Value → Prop where
  | numbers {m n : Int64} (x : Float) (h : m ≠ n) : Clash (.int m) (.float x) (.int n)
  | cells {a b c : Value} {xs ys zs : List Value} (ha : a.cells? = some xs)
      (hb : b.cells? = some ys) (hc : c.cells? = some zs) (i : Nat) {x y z : Value}
      (hx : xs[i]? = some x) (hy : ys[i]? = some y) (hz : zs[i]? = some z) (h : Clash x y z) :
      Clash a b c

theorem not_clash_of_atom {a b c : Value} (ha : a.cells? = none)
    (h : ∀ m x n, a = .int m → b = .float x → c = .int n → m = n) : ¬ Clash a b c := by
  intro hclash
  cases hclash with
  | numbers x hne => exact hne (h _ x _ rfl rfl rfl)
  | cells hxs =>
    rw [ha] at hxs
    cases hxs

theorem agrees_trans_iff {a b c : Value} (ha : a.cells? = none) (h : a.agrees b = true)
    (h' : b.agrees c = true) : a.agrees c = true ↔ ¬ Clash a b c := by
  rcases agrees_cases h with hab | ⟨m, x, rfl, rfl, hab⟩ | ⟨x, n, rfl, rfl, hab⟩
  · refine iff_of_true ?_ (not_clash_of_atom ha ?_)
    · rcases agrees_cases h' with hbc | ⟨m, y, rfl, rfl, hbc⟩ | ⟨y, n, rfl, rfl, hbc⟩
      · exact agrees_of_same (same_trans (same_iff_alike.mpr hab) (same_iff_alike.mpr hbc))
      · cases hab with
        | int => exact hbc
      · cases hab with
        | float hxy => exact beq_trans hbc (beq_symm hxy)
    · rintro m x n rfl rfl -
      cases hab
  · rcases agrees_cases h' with hbc | ⟨m', y, hm', -⟩ | ⟨y, n, hy, rfl, hbc⟩
    · cases hbc with
      | float hxy =>
        refine iff_of_true (beq_trans hab hxy) (not_clash_of_atom ha ?_)
        rintro m x n - - ⟨⟩
    · cases hm'
    · by_cases hmn : m = n
      · subst hmn
        refine iff_of_true (beq_self_eq_true m) (not_clash_of_atom ha ?_)
        rintro m x n ⟨⟩ - ⟨⟩
        rfl
      · refine iff_of_false ?_ (not_not_intro (.numbers x hmn))
        exact fun he => hmn (beq_iff_eq.mp he)
  · refine iff_of_true ?_ (not_clash_of_atom ha ?_)
    · rcases agrees_cases h' with hbc | ⟨m, y, hm, rfl, hbc⟩ | ⟨y, m, hm, -⟩
      · cases hbc with
        | int => exact hab
      · cases hm
        exact beq_trans (beq_symm hab) hbc
      · cases hm
    · rintro m y k ⟨⟩

theorem equal_trans_iff {a b c : Value} (h : a.equal b = true) (h' : b.equal c = true) :
    a.equal c = true ↔ ¬ Clash a b c := by
  induction a using cells_induction generalizing b c with
  | step a ih =>
    rcases equal_cases h with ⟨ha, hb, hab⟩ | ⟨xs, ys, ha, hb, hl, hab⟩ <;>
      rcases equal_cases h' with ⟨hb', hc, hbc⟩ | ⟨ys', zs, hb', hc, hl', hbc⟩
    · rw [equal_atoms ha hc]
      exact agrees_trans_iff ha hab hbc
    · cases hb.symm.trans hb'
    · cases hb.symm.trans hb'
    · obtain rfl : ys = ys' := Option.some.inj (hb.symm.trans hb')
      rw [equal_lists ha hc, equalAll_iff]
      constructor
      · rintro ⟨-, hac⟩ hclash
        cases hclash with
        | numbers => cases ha
        | cells hxs hys hzs i hx hy hz hclash =>
          cases ha.symm.trans hxs
          cases hb.symm.trans hys
          cases hc.symm.trans hzs
          have hiff := ih xs ha _ (List.mem_of_getElem? hx) (hab i _ _ hx hy) (hbc i _ _ hy hz)
          exact hiff.mp (hac i _ _ hx hz) hclash
      · intro hclash
        refine ⟨hl.trans hl', ?_⟩
        intro i x z hx hz
        obtain ⟨y, hy⟩ : ∃ y, ys[i]? = some y := by
          have hi : i < ys.length := hl ▸ (List.getElem?_eq_some_iff.mp hx).1
          exact ⟨ys[i], List.getElem?_eq_getElem hi⟩
        have hiff := ih xs ha x (List.mem_of_getElem? hx) (hab i x y hx hy) (hbc i y z hy hz)
        exact hiff.mpr fun hxyz => hclash (.cells ha hb hc i hx hy hz hxyz)

theorem mem_parts_of_cells {v c w : Value} {cells : List Value} (h : v.cells? = some cells)
    (hc : c ∈ cells) (hw : w ∈ c.parts) : w ∈ v.parts := by
  have hv : v.Everywhere (· ∈ v.parts) := fun _ h => h
  exact hv.cells h c hc w hw

/-- The two integers of a clash round to the double between them. -/
theorem Clash.exists_rounded {a b c : Value} (h : Clash a b c) (hab : a.equal b = true)
    (hbc : b.equal c = true) : ∃ m n : Int64, .int m ∈ a.parts ∧ .int n ∈ c.parts ∧ m ≠ n ∧
      nearest m.toInt = nearest n.toInt := by
  induction h with
  | @numbers m n x hne =>
    have hm : (floatOfInt m == x) = true := hab
    have hn : (floatOfInt n == x) = true := hbc
    exact ⟨m, n, by simp [parts], by simp [parts], hne,
      floatOfInt_beq.mp (beq_trans hm (beq_symm hn))⟩
  | cells ha hb hc i hx hy hz _ ih =>
    rw [equal_lists ha hb, equalAll_iff] at hab
    rw [equal_lists hb hc, equalAll_iff] at hbc
    obtain ⟨m, n, hm, hn, hne, hround⟩ := ih (hab.2 i _ _ hx hy) (hbc.2 i _ _ hy hz)
    exact ⟨m, n, mem_parts_of_cells ha (List.mem_of_getElem? hx) hm,
      mem_parts_of_cells hc (List.mem_of_getElem? hz) hn, hne, hround⟩

/-- Equality is reflexive where no NaN occurs, and it is symmetric. It is transitive exactly where no
double stands between two different integers, and so wherever integers of 53 bits are compared. -/
theorem equal_up_to_rounding (a b c : Value) :
    (a.Everywhere NotNaN → a.equal a = true) ∧
    a.equal b = b.equal a ∧
    (a.equal b = true → b.equal c = true → (a.equal c = true ↔ ¬ Clash a b c)) ∧
    ((∀ n : Int64, .int n ∈ a.parts ∨ .int n ∈ c.parts → n.toInt.natAbs ≤ 2 ^ 53) →
      a.equal b = true → b.equal c = true → a.equal c = true) := by
  refine ⟨equal_refl, ?_, equal_trans_iff, ?_⟩
  · rw [Bool.eq_iff_iff]
    exact ⟨equal_symm, equal_symm⟩
  · intro hsmall hab hbc
    rw [equal_trans_iff hab hbc]
    intro hclash
    obtain ⟨m, n, hm, hn, hne, hround⟩ := hclash.exists_rounded hab hbc
    rw [nearest_of_natAbs_le (hsmall m (Or.inl hm)), nearest_of_natAbs_le (hsmall n (Or.inr hn))]
      at hround
    exact hne (Int64.toInt_inj.mp hround)

/-- Lists of three kinds, with a double between two integers. -/
theorem equal_up_to_rounding_lists : ∃ a b c : Value,
    a = .quoted [.int 7, .str "s"] ∧ b = .seq [.float (floatOfInt 7), .str "s"] ∧
    c = .expr .plain [.int 7, .str "s"] ∧
    a.equal a = true ∧ a.equal b = b.equal a ∧ a.equal b = true ∧ b.equal c = true ∧
    ¬ Clash a b c ∧ a.equal c = true := by
  refine ⟨_, _, _, rfl, rfl, rfl, ?_⟩
  have hx : (floatOfInt 7 == floatOfInt 7) = true := beq_refl (holds_floatOfInt 7).isNaN
  have hab : (quoted [.int 7, .str "s"]).equal (.seq [.float (floatOfInt 7), .str "s"]) = true := by
    simp [quoted, equal, cells?, equalAll, hx, same]
  have hbc : (seq [.float (floatOfInt 7), .str "s"]).equal (.expr .plain [.int 7, .str "s"]) = true := by
    simp [equal, cells?, equalAll, hx, same]
  have hnan : (quoted [.int 7, .str "s"]).Everywhere NotNaN := by
    simp [Everywhere, quoted, parts, partsOfAll, NotNaN]
  obtain ⟨hrefl, hsymm, htrans, hsmall⟩ := equal_up_to_rounding (quoted [.int 7, .str "s"])
    (.seq [.float (floatOfInt 7), .str "s"]) (.expr .plain [.int 7, .str "s"])
  have hac := hsmall (by simp [quoted, parts, partsOfAll]) hab hbc
  exact ⟨hrefl hnan, hsymm, hab, hbc, (htrans hab hbc).mp hac, hac⟩

/-- The first double that two integers round to. -/
theorem equal_of_neighbours : ∃ (m n : Int64) (x : Float), m.toInt = 2 ^ 53 ∧ n.toInt = 2 ^ 53 + 1 ∧
    x.isNaN = false ∧ (Value.int m).equal (.float x) = true ∧
    (Value.float x).equal (.int n) = true ∧ (Value.int m).equal (.int n) = false := by
  obtain ⟨m, hm⟩ : ∃ m : Int64, m.toInt = 2 ^ 53 := ⟨9007199254740992, by decide⟩
  obtain ⟨n, hn⟩ : ∃ n : Int64, n.toInt = 2 ^ 53 + 1 := ⟨9007199254740993, by decide⟩
  have hround : nearest n.toInt = nearest m.toInt := by
    rw [hm, hn]
    decide
  have hnan : (floatOfInt m).isNaN = false := (holds_floatOfInt m).isNaN
  have hne : (m == n) = false := by
    rw [beq_eq_false_iff_ne]
    rintro rfl
    omega
  exact ⟨m, n, floatOfInt m, hm, hn, hnan, beq_refl hnan, floatOfInt_beq.mpr hround, hne⟩

end Value

end Lisplet
