import Lisplet.Proofs.Outcomes

/-! Currying. A closure that gets its arguments in two portions does what it does with all of them
at once: the first portion goes into its frame and nothing of the environment is kept, so only the
environment of the last portion counts. In code, `((h a) b)` is `(h a b)` even where an argument is
a fault, since a fault passes through the outer list. -/

namespace Lisplet

open Value Eval

section

variable {formals : List Name} {body : Value} {captured : Frame} {a b : List Value}

namespace Closure

theorem scope_append (h : a.length ≤ formals.length) :
    scope formals captured (a ++ b) =
      scope (formals.drop a.length) (scope formals captured a) b := by
  induction a generalizing formals captured with
  | nil => simp [scope, Frame.bindAll]
  | cons v rest ih =>
    cases formals with
    | nil => cases h
    | cons name formals =>
      have hr : rest.length ≤ formals.length := Nat.le_of_succ_le_succ h
      exact ih hr

theorem applies_append (ha : a.length < formals.length)
    (hb : a.length + b.length ≤ formals.length) {env last : Env} {v : Value} :
    Applies (formals.drop a.length) body (scope formals captured a) b env v last ↔
      Applies formals body captured (a ++ b) env v last := by
  have hs : scope formals captured (a ++ b) =
      scope (formals.drop a.length) (scope formals captured a) b := scope_append (by omega)
  have hd : (formals.drop a.length).length = formals.length - a.length := List.length_drop
  have hl : (a ++ b).length = a.length + b.length := List.length_append
  by_cases he : a.length + b.length = formals.length
  · rw [applies_full (by omega), applies_full (by omega), hs]
  · rw [applies_waiting (by omega), applies_waiting (by omega), hs, List.drop_drop, hl]

/-- What a closure comes to on a first portion of its arguments. -/
def portion (formals : List Name) (body : Value) (captured : Frame) (args : List Value) : Value :=
  match firstFault? args with
  | some fault => .error fault
  | none => .lambda (formals.drop args.length) body (scope formals captured args)

end Closure

open Closure

theorem Value.combines_portion (hn : ∀ v ∈ a, v.isNothing = false)
    (ha : a.length < formals.length) {env last : Env} {w : Value} :
    Combines (.lambda formals body captured :: a) env w last ↔
      w = portion formals body captured a ∧ last = env := by
  cases hf : firstFault? a with
  | some fault => rw [combines_closure_fault hn hf, portion, hf]
  | none => rw [combines_closure hn hf, applies_waiting ha, portion, hf]

/-- The second portion, given to what the first one left. -/
theorem Value.combines_portions (ha : ∀ v ∈ a, v.isNothing = false)
    (hb : ∀ v ∈ b, v.isNothing = false) (hl : a.length < formals.length)
    (hk : a.length + b.length ≤ formals.length) {env last : Env} {v : Value} :
    Combines (portion formals body captured a :: b) env v last ↔
      Combines (.lambda formals body captured :: (a ++ b)) env v last := by
  have hab : ∀ v ∈ a ++ b, v.isNothing = false := List.forall_mem_append.mpr ⟨ha, hb⟩
  have happ : firstFault? (a ++ b) = (firstFault? a).or (firstFault? b) := List.findSome?_append
  cases hf : firstFault? a with
  | some fault =>
    -- The outer list has the fault at its head and hands it on.
    have hab' : firstFault? (a ++ b) = some fault := by rw [happ, hf, Option.some_or]
    rw [combines_closure_fault hab hab', portion, hf, combines_fault]
  | none =>
    have hab' : firstFault? (a ++ b) = firstFault? b := by rw [happ, hf, Option.none_or]
    rw [portion, hf]
    cases hg : firstFault? b with
    | some fault =>
      rw [combines_closure_fault hb hg, combines_closure_fault hab (hab'.trans hg)]
    | none => rw [combines_closure hb hg, combines_closure hab (hab'.trans hg), applies_append hl hk]

end

namespace Value

section

variable {h : Value} {as bs : List Value} {env e₀ last : Env} {formals : List Name} {body : Value}
  {captured : Frame} {v w : Value}

/-- A list with a closure at its head, whose cells are evaluated one after another. -/
theorem yields_application (hh : h.Yields env (.lambda formals body captured) e₀)
    (hne : as ≠ []) :
    (expr .plain (h :: as)).Yields env v last ↔
      ∃ vs, Runs as e₀ vs last ∧ Combines (.lambda formals body captured :: vs) last v last := by
  rw [yields_list hne]
  constructor
  · rintro ⟨us, mid, hr, hc⟩
    obtain ⟨u, e, vs, hu, hv, rfl⟩ := runs_cons_iff.mp hr
    obtain ⟨rfl, rfl⟩ := hu.unique (steady_evaluate h) hh
    obtain rfl := combines_closure_env hc
    exact ⟨vs, hv, hc⟩
  · rintro ⟨vs, hv, hc⟩
    exact ⟨_, _, .next hh hv, hc⟩

/-- The list of the head and a first portion, which may be empty. -/
theorem yields_portion (hh : h.Yields env (.lambda formals body captured) e₀)
    (hl : as.length < formals.length) :
    (expr .plain (h :: as)).Yields env w last ↔
      ∃ vs, Runs as e₀ vs last ∧ Combines (.lambda formals body captured :: vs) last w last := by
  by_cases hne : as = []
  · subst hne
    have hc : Closure.portion formals body captured [] = .lambda formals body captured := by
      simp [Closure.portion, firstFault?, Closure.scope, Frame.bindAll]
    rw [yields_alone hh (by simp)]
    constructor
    · rintro ⟨rfl, rfl⟩
      exact ⟨[], .nil _, (combines_portion (by simp) hl).mpr ⟨hc.symm, rfl⟩⟩
    · rintro ⟨vs, hr, hw⟩
      cases hr
      obtain ⟨rfl, -⟩ := (combines_portion (by simp) hl).mp hw
      exact ⟨hc, rfl⟩
  · exact yields_application hh hne

theorem yields_portions_iff (hh : h.Yields env (.lambda formals body captured) e₀)
    (hb : bs ≠ []) (hk : as.length + bs.length ≤ formals.length)
    (hn : ∀ vs mid, Runs (as ++ bs) e₀ vs mid → ∀ v ∈ vs, v.isNothing = false) :
    (expr .plain (expr .plain (h :: as) :: bs)).Yields env v last ↔
      (expr .plain (h :: (as ++ bs))).Yields env v last := by
  have hpos : 0 < bs.length := List.length_pos_iff.mpr hb
  have hne : as ++ bs ≠ [] := by simp [hb]
  have portions {us ws : List Value} {e₁ e₂ : Env} (ha : Runs as e₀ us e₁) (hw : Runs bs e₁ ws e₂) :
      (∀ v ∈ us, v.isNothing = false) ∧ (∀ v ∈ ws, v.isNothing = false) ∧
        us.length < formals.length ∧ us.length + ws.length ≤ formals.length := by
    have hrun := hn (us ++ ws) e₂ (runs_append.mpr ⟨us, e₁, ws, ha, hw, rfl⟩)
    obtain ⟨hu, hv⟩ := List.forall_mem_append.mp hrun
    have hlu := ha.length_eq
    have hlw := hw.length_eq
    exact ⟨hu, hv, by omega, by omega⟩
  rw [yields_list hb, yields_application hh hne]
  constructor
  · rintro ⟨vs, mid, hr, hc⟩
    obtain ⟨w, e₁, ws, hw, hbs, rfl⟩ := runs_cons_iff.mp hr
    obtain ⟨us, has, hp⟩ := (yields_portion hh (by omega)).mp hw
    obtain ⟨hu, hv, hl, hk'⟩ := portions has hbs
    obtain ⟨rfl, -⟩ := (combines_portion hu hl).mp hp
    have hc' := (combines_portions hu hv hl hk').mp hc
    obtain rfl := combines_closure_env hc'
    exact ⟨us ++ ws, runs_append.mpr ⟨us, e₁, ws, has, hbs, rfl⟩, hc'⟩
  · rintro ⟨vs, hr, hc⟩
    obtain ⟨us, e₁, ws, has, hbs, rfl⟩ := runs_append.mp hr
    obtain ⟨hu, hv, hl, hk'⟩ := portions has hbs
    have hp : Combines (.lambda formals body captured :: us) e₁
        (Closure.portion formals body captured us) e₁ := (combines_portion hu hl).mpr ⟨rfl, rfl⟩
    have hw := (yields_portion hh (by omega)).mpr ⟨us, has, hp⟩
    exact ⟨_, _, .next hw hbs, (combines_portions hu hv hl hk').mpr hc⟩

end

end Value

namespace Closure

/-- A closure with some of its arguments, but not all, is a closure again, which does with the rest
what the first does with all, wherever it was made. So a form that applies it in two portions and
one that gives all arguments at once end alike: a first portion that is empty, faults among the
arguments and arguments that define names make no difference. -/
theorem portions_iff_whole :
    (∀ (formals : List Name) (body : Value) (captured : Frame) (a b : List Value),
      a.length < formals.length → a.length + b.length ≤ formals.length →
      ∃ (rest : List Name) (frame : Frame),
        (∀ E₁ v last, Applies formals body captured a E₁ v last ↔
          v = .lambda rest body frame ∧ last = E₁) ∧
        ∀ E₂ v last, Applies rest body frame b E₂ v last ↔
          Applies formals body captured (a ++ b) E₂ v last) ∧
    ∀ (h : Value) (as bs : List Value) (env e₀ : Env) (formals : List Name) (body : Value)
      (captured : Frame), h.Yields env (.lambda formals body captured) e₀ → bs ≠ [] →
      as.length + bs.length ≤ formals.length →
      (∀ vs mid, Runs (as ++ bs) e₀ vs mid → ∀ v ∈ vs, v.isNothing = false) →
      ∀ v last, (Value.expr .plain (.expr .plain (h :: as) :: bs)).Yields env v last ↔
        (Value.expr .plain (h :: (as ++ bs))).Yields env v last := by
  refine ⟨?_, ?_⟩
  · intro formals body captured a b ha hb
    refine ⟨formals.drop a.length, scope formals captured a, ?_, ?_⟩
    · intro E₁ v last
      exact applies_waiting ha
    · intro E₂ v last
      exact applies_append ha hb
  · intro h as bs env e₀ formals body captured hh hb hk hn v last
    exact yields_portions_iff hh hb hk hn

/-- Two formals have the same name; in the forms, the first argument defines `z` on the way and the
second is a fault. -/
theorem portions_iff_whole_definition_and_fault :
    (∃ (rest : List Name) (frame : Frame),
      (∀ E₁ v last, Applies ["x", "x", "y"] (.sym "x") [] [.int 1, .int 2] E₁ v last ↔
        v = .lambda rest (.sym "x") frame ∧ last = E₁) ∧
      ∀ E₂ v last, Applies rest (.sym "x") frame [.int 3] E₂ v last ↔
        Applies ["x", "x", "y"] (.sym "x") [] [.int 1, .int 2, .int 3] E₂ v last) ∧
    (Value.expr .plain [.expr .plain [.lambda ["x", "y"] (.sym "x") [],
      .expr .plain [.define "z" (.int 1), .int 5]], .sym "u"]).Yields (.empty .default)
        (.error ⟨.unboundSymbol, "u"⟩) ((Env.empty .default).bind "z" (.int 1)) := by
  refine ⟨portions_iff_whole.1 _ _ _ _ _ (by decide) (by decide), ?_⟩
  let env : Env := .empty .default
  let later : Env := env.bind "z" (.int 1)
  let head : Value := .lambda ["x", "y"] (.sym "x") []
  let first : Value := .expr .plain [.define "z" (.int 1), .int 5]
  have hh : head.Yields env head env := yields_literal rfl
  have hfirst : first.Yields env (.int 5) later := ⟨3, _, rfl⟩
  have hsecond : (Value.sym "u").Yields later (.error ⟨.unboundSymbol, "u"⟩) later :=
    yields_sym.mpr ⟨by rw [Env.lookup_bind, if_neg (by decide)]; rfl, rfl⟩
  have hr : Runs ([first] ++ [.sym "u"]) env [.int 5, .error ⟨.unboundSymbol, "u"⟩] later :=
    .next hfirst (.next hsecond (.nil _))
  have hn : ∀ vs mid, Runs ([first] ++ [.sym "u"]) env vs mid → ∀ v ∈ vs, v.isNothing = false := by
    intro vs mid hvs
    obtain ⟨rfl, -⟩ := hvs.unique hr
    simp [isNothing]
  have hwhole : (Value.expr .plain (head :: ([first] ++ [.sym "u"]))).Yields env
      (.error ⟨.unboundSymbol, "u"⟩) later := by
    refine (yields_application hh (by simp)).mpr ⟨_, hr, ?_⟩
    exact (combines_closure_fault (by simp [isNothing]) rfl).mpr ⟨rfl, rfl⟩
  exact (portions_iff_whole.2 head [first] [.sym "u"] env env _ _ _ hh (by simp) (by decide) hn _ _).mpr
    hwhole

end Closure

end Lisplet
