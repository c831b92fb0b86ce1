import Mathlib.Data.Finset.Max
import Lisplet.Proofs.Exactness
import Lisplet.Proofs.Rounding

/-! Maximum and minimum of integers. They compare integers as doubles, so they see the rounded
numbers: of the elements whose rounded numbers are extreme they give the first one. It is the
extreme element unless one that stands before that rounds to the same number. -/

namespace Lisplet

open Rounding

/-- The first element with the greatest key. -/
def FirstBy (key : Int64 → Int) (xs : List Int64) (m : Int64) : Prop :=
  ∃ before after, xs = before ++ m :: after ∧
    (∀ a ∈ before, key a < key m) ∧ ∀ a ∈ after, key a ≤ key m

namespace FirstBy

variable {key : Int64 → Int} {xs : List Int64} {m g : Int64}

theorem singleton (key : Int64 → Int) (n : Int64) : FirstBy key [n] n :=
  ⟨[], [], rfl, nofun, nofun⟩

theorem mem (h : FirstBy key xs m) : m ∈ xs := by
  obtain ⟨before, after, rfl, -⟩ := h
  exact List.mem_append_right _ List.mem_cons_self

theorem key_le (h : FirstBy key xs m) {a : Int64} (ha : a ∈ xs) : key a ≤ key m := by
  obtain ⟨before, after, rfl, hbefore, hafter⟩ := h
  rcases List.mem_append.mp ha with ha | ha
  · exact Int.le_of_lt (hbefore a ha)
  · rcases List.mem_cons.mp ha with rfl | ha
    · exact Int.le_refl _
    · exact hafter a ha

/-- One more element wins only with a greater key. -/
theorem concat (h : FirstBy key xs m) (v : Int64) :
    FirstBy key (xs ++ [v]) (if key m < key v then v else m) := by
  split
  case isTrue hlt =>
    exact ⟨xs, [], rfl, fun a ha => Int.lt_of_le_of_lt (h.key_le ha) hlt, nofun⟩
  case isFalse hge =>
    obtain ⟨before, after, rfl, hbefore, hafter⟩ := h
    refine ⟨before, after ++ [v], by simp, hbefore, ?_⟩
    intro a ha
    rcases List.mem_append.mp ha with ha | ha
    · exact hafter a ha
    · rw [List.mem_singleton.mp ha]
      exact Int.not_lt.mp hge

/-- An element with the same key is the first one if no such element stands before it. -/
theorem eq_iff (h : FirstBy key xs m) (hk : key g = key m) :
    m = g ↔ ∀ a ∈ xs.takeWhile (· ≠ g), key a ≠ key g := by
  obtain ⟨before, after, rfl, hbefore, hafter⟩ := h
  have hne : ∀ a ∈ before, decide (a ≠ g) = true := by
    intro a ha
    rw [decide_eq_true_iff]
    rintro rfl
    exact Int.ne_of_lt (hbefore a ha) hk
  rw [List.takeWhile_append_of_pos hne]
  constructor
  · rintro rfl a ha
    rw [List.takeWhile_cons_of_neg (by simp), List.append_nil] at ha
    exact Int.ne_of_lt (hbefore a ha)
  · intro hdistinct
    by_contra hmg
    refine hdistinct m ?_ hk.symm
    rw [List.takeWhile_cons_of_pos (by simpa using hmg)]
    exact List.mem_append_right _ List.mem_cons_self

theorem eq_head {n : Int64} {ns : List Int64} (h : FirstBy key (n :: ns) m)
    (hle : ∀ a ∈ ns, key a ≤ key n) : m = n := by
  obtain ⟨before, after, heq, hbefore, -⟩ := h
  cases before with
  | nil => exact (List.cons.inj heq).1.symm
  | cons a before =>
    obtain ⟨rfl, rfl⟩ := List.cons.inj heq
    have hlt := hbefore n List.mem_cons_self
    have hge := hle m (List.mem_append_right _ List.mem_cons_self)
    omega

end FirstBy

/-- Between two integers the operation keeps the left one unless the right one has a greater key. -/
def Arithmetic.Prefers (op : Arithmetic) (key : Int64 → Int) : Prop :=
  ∀ a b, Number.apply op (.int a) (.int b) = .ok (.int (if key a < key b then b else a))

namespace Arithmetic

theorem prefers_max : Prefers .max fun n => nearest n.toInt := by
  intro a b
  simp only [Number.apply, Number.toFloat, floatOfInt_lt]
  split <;> rfl

theorem prefers_min : Prefers .min fun n => nearest (-n.toInt) := by
  intro a b
  simp only [Number.apply, Number.toFloat, floatOfInt_lt, nearest_neg, Int.neg_lt_neg_iff]
  split <;> rfl

variable {op : Arithmetic} {key : Int64 → Int}

/-- The fold carries the first element with the greatest key among those it has taken in. -/
theorem Prefers.fold (h : op.Prefers key) {seen : List Int64} {acc : Int64}
    (hacc : FirstBy key seen acc) (ns : List Int64) :
    ∃ m, FirstBy key (seen ++ ns) m ∧ Number.fold op (.int acc) (ns.map .int) = .ok (.int m) := by
  induction ns generalizing seen acc with
  | nil => exact ⟨acc, by rwa [List.append_nil], rfl⟩
  | cons n ns ih =>
    obtain ⟨m, hm, hfold⟩ := ih (hacc.concat n)
    refine ⟨m, by rwa [List.append_assoc] at hm, ?_⟩
    rw [List.map_cons, Number.fold]
    change (Number.apply op (.int acc) (.int n) >>= _) = _
    rw [h acc n]
    exact hfold

theorem Prefers.call (h : op.Prefers key) (evaluate : Value → Eval Value) (n : Int64)
    (ns : List Int64) :
    ∃ m, FirstBy key (n :: ns) m ∧
      (Builtin.ofArithmetic op).call evaluate ((n :: ns).map .int) = pure (.int m) := by
  obtain ⟨m, hm, hfold⟩ := h.fold (.singleton key n) ns
  refine ⟨m, hm, ?_⟩
  rw [Builtin.call_integers, hfold]
  rfl

end Arithmetic

/-- How a result `m` stands to the extreme element `g`; the rank grows towards it. -/
structure Approximates (rank : Int64 → Int) (xs : List Int64) (g m : Int64) : Prop where
  mem : g ∈ xs
  extreme : ∀ a ∈ xs, rank a ≤ rank g
  first : FirstBy (fun a => nearest (rank a)) xs m
  eq_iff : m = g ↔ ∀ a ∈ xs.takeWhile (· ≠ g), nearest (rank a) ≠ nearest (rank g)
  small : (∀ a ∈ xs, (rank a).natAbs ≤ 2 ^ 53) → m = g
  near : rank g ≤ rank m + 1024

theorem FirstBy.approximates (rank : Int64 → Int) {xs : List Int64} {m : Int64}
    (hinj : ∀ a b, rank a = rank b → a = b) (hbound : ∀ a, (rank a).natAbs ≤ 2 ^ 63)
    (h : FirstBy (fun a => nearest (rank a)) xs m) : ∃ g, Approximates rank xs g m := by
  obtain ⟨g, hg, hmax⟩ := Finset.exists_max_image xs.toFinset rank ⟨m, by simpa using h.mem⟩
  simp only [List.mem_toFinset] at hg hmax
  have hk : nearest (rank g) = nearest (rank m) :=
    Int.le_antisymm (h.key_le hg) (nearest_mono (hmax m h.mem))
  refine ⟨g, hg, hmax, h, h.eq_iff hk, ?_, ?_⟩
  · intro hsmall
    rw [nearest_of_natAbs_le (hsmall g hg), nearest_of_natAbs_le (hsmall m h.mem)] at hk
    exact hinj m g hk.symm
  · have hnear := (nearest_near (hbound g)).1
    have hnear' := (nearest_near (hbound m)).2
    omega

theorem natAbs_toInt_le (n : Int64) : n.toInt.natAbs ≤ 2 ^ 63 := by
  have hlow : -2 ^ 63 ≤ n.toInt := n.le_toInt
  have hhigh : n.toInt < 2 ^ 63 := n.toInt_lt
  omega

/-- Maximum and minimum of any integers are integers of the list that differ from the extreme one by
1024 at most. They are that one exactly if nothing before it rounds to the same double. -/
theorem extremes_up_to_rounding (evaluate : Value → Eval Value) (n : Int64) (ns : List Int64) :
    (∃ g m, Approximates (fun a => a.toInt) (n :: ns) g m ∧
      (Builtin.ofArithmetic .max).call evaluate ((n :: ns).map .int) = pure (.int m)) ∧
    ∃ g m, Approximates (fun a => -a.toInt) (n :: ns) g m ∧
      (Builtin.ofArithmetic .min).call evaluate ((n :: ns).map .int) = pure (.int m) := by
  constructor
  · obtain ⟨m, hm, hcall⟩ := Arithmetic.prefers_max.call evaluate n ns
    obtain ⟨g, hg⟩ := FirstBy.approximates (fun a => a.toInt)
      (fun a b h => Int64.toInt_inj.mp h) natAbs_toInt_le hm
    exact ⟨g, m, hg, hcall⟩
  · obtain ⟨m, hm, hcall⟩ := Arithmetic.prefers_min.call evaluate n ns
    obtain ⟨g, hg⟩ := FirstBy.approximates (fun a => -a.toInt)
      (fun a b h => Int64.toInt_inj.mp (Int.neg_inj.mp h))
      (fun a => by rw [Int.natAbs_neg]; exact natAbs_toInt_le a) hm
    exact ⟨g, m, hg, hcall⟩

/-- The first two neighbours that round to the same double: the one given first is the result. -/
theorem extremes_of_neighbours : ∃ a b : Int64, a.toInt = 2 ^ 53 ∧ b.toInt = 2 ^ 53 + 1 ∧
    ∀ evaluate, (Builtin.ofArithmetic .max).call evaluate [.int a, .int b] = pure (.int a) ∧
      (Builtin.ofArithmetic .min).call evaluate [.int b, .int a] = pure (.int b) := by
  obtain ⟨a, ha⟩ : ∃ a : Int64, a.toInt = 2 ^ 53 := ⟨9007199254740992, by decide⟩
  obtain ⟨b, hb⟩ : ∃ b : Int64, b.toInt = 2 ^ 53 + 1 := ⟨9007199254740993, by decide⟩
  have hround : nearest a.toInt = nearest b.toInt := by
    rw [ha, hb]
    decide
  refine ⟨a, b, ha, hb, fun evaluate => ⟨?_, ?_⟩⟩
  · obtain ⟨m, hm, hcall⟩ := Arithmetic.prefers_max.call evaluate a [b]
    have heq : m = a := hm.eq_head (by simp [hround])
    rw [heq] at hcall
    exact hcall
  · obtain ⟨m, hm, hcall⟩ := Arithmetic.prefers_min.call evaluate b [a]
    have heq : m = b := hm.eq_head (by simp [nearest_neg, hround])
    rw [heq] at hcall
    exact hcall

end Lisplet
