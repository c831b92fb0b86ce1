import Mathlib.Data.List.Basic
import Lisplet.Proofs.Lists

/-! The prelude sorts. A call of `sort` binds the pivot and the rest in its own frame, filters the rest
twice with a comparison that finds the pivot in the frames of its callers, and sorts what is left on
both sides, so the induction is on the length of the list, over all environments. -/

namespace Lisplet

open Value Eval Prelude

/-- The same numbers in ascending order. -/
def Arranges (ys xs : List Int64) : Prop := ys.Perm xs ∧ ys.Pairwise (· ≤ ·)

theorem exists_arranges (xs : List Int64) : ∃ ys, Arranges ys xs := by
  have ht : ∀ a b c : Int64, decide (a ≤ b) = true → decide (b ≤ c) = true → decide (a ≤ c) = true := by
    intro a b c hab hbc
    rw [decide_eq_true_eq] at hab hbc ⊢
    exact Int64.le_trans hab hbc
  have hd : ∀ a b : Int64, (decide (a ≤ b) || decide (b ≤ a)) = true := by
    intro a b
    simpa using Int64.le_total a b
  refine ⟨xs.mergeSort (decide <| · ≤ ·), List.mergeSort_perm xs _, ?_⟩
  simpa using List.pairwise_mergeSort ht hd xs

theorem Arranges.unique {xs ys zs : List Int64} (h : Arranges ys xs) (h' : Arranges zs xs) :
    ys = zs :=
  List.Perm.eq_of_pairwise (fun _ _ _ _ => Int64.le_antisymm) h.2 h'.2 (h.1.trans h'.1.symm)

/-- What a pivot leaves on its two sides, each side arranged. -/
theorem Arranges.around {n : Int64} {rest low high : List Int64}
    (hl : Arranges low (rest.filter (Comparison.lt.between · n)))
    (hh : Arranges high (rest.filter (Comparison.ge.between · n))) :
    Arranges (low ++ [n] ++ high) (n :: rest) := by
  have hlow : ∀ m ∈ low, m < n := by
    intro m hm
    have := List.of_mem_filter (hl.1.subset hm)
    simpa [Comparison.between] using this
  have hhigh : ∀ m ∈ high, n ≤ m := by
    intro m hm
    have := List.of_mem_filter (hh.1.subset hm)
    simpa [Comparison.between, Int64.not_lt] using this
  constructor
  · calc (low ++ [n] ++ high).Perm (n :: (low ++ high)) := by
          rw [List.append_assoc, List.singleton_append]
          exact List.perm_middle
      _ |>.Perm (n :: rest) := by
          refine .cons n ((hl.1.append hh.1).trans ?_)
          simpa [Comparison.between] using List.filter_append_perm (fun m => decide (m < n)) rest
  · rw [List.append_assoc, List.singleton_append, List.pairwise_append, List.pairwise_cons]
    refine ⟨hl.2, ⟨hhigh, hh.2⟩, ?_⟩
    intro a ha b hb
    have hab := hlow a ha
    rcases List.mem_cons.mp hb with rfl | hb
    · exact Int64.le_of_lt hab
    · exact Int64.le_trans (Int64.le_of_lt hab) (hhigh b hb)

/-- The frame of a call of `sort` after its two definitions. -/
def Prelude.split (env : Env) (n : Int64) (rest : List Int64) : Env :=
  (env.bind "pivot" (.int n)).bind "rest" (.quoted (rest.map .int))

namespace Env.Provides

variable {env : Env} {n : Int64} {rest : List Int64}

theorem bind (h : env.Provides) {name : Name} (hn : name ∈ locals) (value : Value) :
    (env.bind name value).Provides := by
  have he : ∀ m, m ∉ [name] → (env.bind name value).get? m = env.get? m := by
    intro m hm
    rw [get?_bind, if_neg (by simpa using hm)]
  exact h.of_other (by simpa using hn) he

theorem combines_beside (h : env.Provides) (hp : env.lookup "pivot" = .int n) {op : Comparison}
    (m : Int64) : Combines [beside op.name, .int m] env (.bool (op.between m n)) env := by
  refine h.combines_function (by decide) (by simp) (by simp [proper_int]) rfl ?_
  intro e he hs
  have hy : e.lookup "y" = .int m := hs.args ("y", .int m) (by simp)
  have hp' : e.lookup "pivot" = .int n := by rw [lookup_congr (hs.other "pivot" (by decide)), hp]
  have ha : Runs [.sym "y", .sym "pivot"] e [.int m, .int n] e :=
    .next (yields_name hy) (.next (yields_name hp') (.nil e))
  refine ⟨e, he.yields_operation (b := .ofComparison op) ?_ (by simp) ha ?_ rfl fun _ => rfl⟩
  · cases op <;> decide
  · simp [proper_int]

/-- One side of the pivot. -/
theorem yields_side (h : env.Provides) (hp : env.lookup "pivot" = .int n)
    (hr : env.lookup "rest" = .quoted (rest.map .int)) (op : Comparison) :
    (call "filter" [beside op.name, .sym "rest"]).Yields env
      (.quoted ((rest.filter (op.between · n)).map .int)) env := by
  have hfilter : env.lookup "filter" = Prelude.filter := h.prelude (by simp [bindings])
  have hm : (rest.map .int).filter (op.holds n) = (rest.filter (op.between · n)).map Value.int :=
    List.filter_map
  rw [← hm]
  refine yields_call hfilter (by simp)
    (.next (yields_literal rfl) (.next (yields_name hr) (.nil env))) ?_
  refine h.combines_filter ⟨rfl, rfl⟩ ?_ ?_
  · simp [isConstant]
  · intro e he c hc
    obtain ⟨m, -, rfl⟩ := List.mem_map.mp hc
    have hp' : e.lookup "pivot" = .int n := by rw [lookup_congr (he "pivot" (by decide)), hp]
    exact (h.of_other (by decide) he).combines_beside hp' m

theorem yields_split (h : env.Provides)
    (hx : env.lookup "xs" = .quoted ((n :: rest).map .int)) :
    (expr .plain [.define "pivot" (call "fst" [.sym "xs"]),
      .define "rest" (call "tail" [.sym "xs"])]).Yields env .nothing (split env n rest) := by
  have hb : (env.bind "pivot" (.int n)).Provides := h.bind (by decide) _
  have hx' : (env.bind "pivot" (.int n)).lookup "xs" = .quoted ((n :: rest).map .int) := by
    rw [lookup_bind, if_neg (by decide), hx]
  have hpivot := h.yields_fst (yields_name hx) rfl
  have hrest := hb.yields_tail (yields_name hx')
  exact (Value.yields_list (by simp)).mpr
    ⟨_, _, .next (yields_define hpivot rfl) (.next (yields_define hrest rfl) (.nil _)), ⟨0, [], rfl⟩⟩

/-- The two sides of the pivot are sorted and joined around it. -/
theorem yields_joined (h : env.Provides) (hp : env.lookup "pivot" = .int n)
    (hr : env.lookup "rest" = .quoted (rest.map .int)) {side : Comparison → List Int64}
    (hs : ∀ op, Combines [sort, .quoted ((rest.filter (op.between · n)).map .int)] env
      (.quoted ((side op).map .int)) env) :
    (call "join" [call "sort" [call "filter" [beside "<", .sym "rest"]], call "list" [.sym "pivot"],
      call "sort" [call "filter" [beside ">=", .sym "rest"]]]).Yields env
        (.quoted ((side .lt ++ [n] ++ side .ge).map .int)) env := by
  have hsort : env.lookup "sort" = Prelude.sort := h.prelude (by simp [bindings])
  have hside (op : Comparison) : (call "sort" [call "filter" [beside op.name, .sym "rest"]]).Yields env
      (.quoted ((side op).map .int)) env :=
    yields_call hsort (by simp) (.next (h.yields_side hp hr op) (.nil env)) (hs op)
  have hlist := h.yields_list (yields_name hp) (proper_int n)
  have hm : (side .lt ++ [n] ++ side .ge).map Value.int =
      [(side .lt).map .int, [.int n], (side .ge).map .int].flatten := by simp
  rw [hm]
  exact h.yields_join (by simp) (.next (hside .lt) (.next hlist (.next (hside .ge) (.nil env))))

/-- Wherever the globals are visible, `sort` arranges its list. -/
theorem combines_sort (h : env.Provides) {xs ys : List Int64} (hy : Arranges ys xs) :
    Combines [sort, .quoted (xs.map .int)] env (.quoted (ys.map .int)) env := by
  induction hl : xs.length using Nat.strong_induction_on generalizing xs ys env with
  | _ length ih =>
    refine h.combines_function (by decide) (by simp) (by simp [proper_quoted]) rfl ?_
    intro e he hs
    have hxs : e.lookup "xs" = .quoted (xs.map .int) := hs.args ("xs", .quoted (xs.map .int)) (by simp)
    cases xs with
    | nil =>
      have hnil : e.lookup "nil" = .quoted [] := he.prelude (by simp [bindings])
      obtain rfl : ys = [] := hy.1.eq_nil
      exact ⟨e, yields_cond (he.yields_empty (yields_name hxs)) (yields_name hnil)⟩
    | cons n rest =>
      choose side hside using fun op : Comparison => exists_arranges (rest.filter (op.between · n))
      obtain rfl : ys = side .lt ++ [n] ++ side .ge := hy.unique ((hside .lt).around (hside .ge))
      have he' : (split e n rest).Provides := (he.bind (by decide) _).bind (by decide) _
      have hpivot : (split e n rest).lookup "pivot" = .int n := by
        rw [split, lookup_bind, if_neg (by decide), lookup_bind, if_pos rfl]
      have hrest : (split e n rest).lookup "rest" = .quoted (rest.map .int) := by
        rw [split, lookup_bind, if_pos rfl]
      have hsort (op : Comparison) : Combines
          [sort, .quoted ((rest.filter (op.between · n)).map .int)] (split e n rest)
          (.quoted ((side op).map .int)) (split e n rest) := by
        have hlt : (rest.filter (op.between · n)).length < length := by
          have := List.length_filter_le (op.between · n) rest
          rw [← hl, List.length_cons]
          omega
        exact ih _ hlt he' (hside op) rfl
      -- The definitions come to nothing, so the list of both has the value of the second cell.
      have hjoin := he'.yields_joined hpivot hrest hsort
      refine ⟨split e n rest, yields_cond (he.yields_empty (yields_name hxs)) ?_⟩
      exact (Value.yields_list (by simp)).mpr
        ⟨_, _, .next (he.yields_split hxs) (.next hjoin (.nil _)), ⟨0, [], rfl⟩⟩

end Env.Provides

/-- In a fresh session `sort` ends with the ascending arrangement and leaves the globals alone. -/
theorem Session.yields_sort_arranged (context : Context) (xs : List Int64) :
    ∃ ys : List Int64, ys.Perm xs ∧ ys.Pairwise (· ≤ ·) ∧
      (Value.expr .plain [.sym "sort", .quoted (xs.map .int)]).Yields (start context).1
        (.quoted (ys.map .int)) (start context).1 := by
  have h := start_provides context
  have hsort : (start context).1.lookup "sort" = Prelude.sort := h.prelude (by simp [bindings])
  obtain ⟨ys, hy⟩ := exists_arranges xs
  exact ⟨ys, hy.1, hy.2, yields_call hsort (by simp) (.next (yields_literal rfl) (.nil _))
    (h.combines_sort hy)⟩

end Lisplet
