import Lisplet.Proofs.Canonical
import Lisplet.Proofs.Sessions

/-! What computations end with, however much depth that takes and whatever is told on the way. A
form ends with a value exactly if its parts end with the values that it is made from, so programs
can be followed form by form without a count of depth. -/

namespace Lisplet

namespace Eval

variable {α β : Type}

/-- More depth never changes an outcome. -/
def Steady (x : Nat → Eval α) : Prop :=
  ∀ ⦃d d' : Nat⦄, d ≤ d' → ∀ ⦃env : Env⦄ ⦃o : Outcome α⦄, x d env = some o → x d' env = some o

/-- Some depth suffices, and this is the value and the environment that is left. -/
def Ends (x : Nat → Eval α) (env : Env) (a : α) (last : Env) : Prop :=
  ∃ depth events, x depth env = some ⟨a, last, events⟩

section

variable {env last : Env}

theorem ends_pure {a b : α} : Ends (fun _ => pure a) env b last ↔ b = a ∧ last = env := by
  constructor
  · rintro ⟨depth, events, h⟩
    cases h
    exact ⟨rfl, rfl⟩
  · rintro ⟨rfl, rfl⟩
    exact ⟨0, [], rfl⟩

theorem ends_bind {x : Nat → Eval α} {f : Nat → α → Eval β} (hx : Steady x)
    (hf : ∀ a, Steady fun d => f d a) {b : β} :
    Ends (fun d => x d >>= f d) env b last ↔
      ∃ a mid, Ends x env a mid ∧ Ends (fun d => f d a) mid b last := by
  constructor
  · rintro ⟨depth, events, h⟩
    obtain ⟨first, second, h₁, h₂, ho⟩ := bind_eq_some.mp h
    cases ho
    exact ⟨first.value, first.env, ⟨depth, first.events, h₁⟩, ⟨depth, second.events, h₂⟩⟩
  · rintro ⟨a, mid, ⟨here, told, h₁⟩, ⟨there, later, h₂⟩⟩
    -- The deeper of the two computations sets the depth of both.
    have h₁' := hx (Nat.le_max_left here there) h₁
    have h₂' := hf a (Nat.le_max_right here there) h₂
    exact ⟨_, _, bind_eq_some.mpr ⟨_, _, h₁', h₂', rfl⟩⟩

theorem ends_told (e : Event) {x : Nat → Eval α} {a : α} :
    Ends (fun d => tell e >>= fun _ => x d) env a last ↔ Ends x env a last := by
  constructor
  · rintro ⟨depth, events, h⟩
    obtain ⟨first, second, h₁, h₂, ho⟩ := bind_eq_some.mp h
    cases h₁
    cases ho
    exact ⟨depth, second.events, h₂⟩
  · rintro ⟨depth, events, h⟩
    exact ⟨depth, _, bind_eq_some.mpr ⟨_, _, rfl, h, rfl⟩⟩

theorem ends_within {frame : Frame} {x : Nat → Eval α} {a : α} :
    Ends (fun d => within frame (x d)) env a last ↔
      (∃ inner, Ends x (env.enclose frame) a inner) ∧ last = env := by
  constructor
  · rintro ⟨depth, events, h⟩
    obtain ⟨inner, hi, ho⟩ := within_eq_some.mp h
    cases ho
    exact ⟨⟨inner.env, depth, inner.events, hi⟩, rfl⟩
  · rintro ⟨⟨inner, depth, events, h⟩, rfl⟩
    exact ⟨depth, events, within_eq_some.mpr ⟨_, h, rfl⟩⟩

theorem Ends.unique {x : Nat → Eval α} (hx : Steady x) {a b : α} {last' : Env}
    (h : Ends x env a last) (h' : Ends x env b last') : a = b ∧ last = last' := by
  obtain ⟨here, told, h⟩ := h
  obtain ⟨there, told', h'⟩ := h'
  have he := hx (Nat.le_max_left here there) h
  rw [hx (Nat.le_max_right here there) h'] at he
  cases he
  exact ⟨rfl, rfl⟩

end

end Eval

open Eval

namespace Value

/-- The node evaluates to this value and leaves this environment. -/
abbrev Yields (node : Value) : Env → Value → Env → Prop := Ends fun depth => evaluate depth node

/-- Evaluating a list whose cells have these values ends like this. -/
abbrev Combines (values : List Value) : Env → Value → Env → Prop :=
  Ends fun depth => combine (evaluate depth) values

end Value

/-- Applying the closure to the arguments ends like this. -/
abbrev Closure.Applies (formals : List Name) (body : Value) (captured : Frame)
    (args : List Value) : Env → Value → Env → Prop :=
  Ends fun depth => Closure.apply (Value.evaluate depth) formals body captured args

namespace Value

theorem steady_evaluate (node : Value) : Steady fun depth => evaluate depth node :=
  fun _ _ hd _ _ h => evaluate_mono hd h

theorem steady_of_follows {α : Type} {P : α → Prop} {x : (Value → Eval Value) → Eval α}
    (h : ∀ {ev ev' : Value → Eval Value}, Discipline.free.single.Tracks ev ev' →
      Discipline.free.single.Follows P (x ev) (x ev')) :
    Steady fun depth => x (evaluate depth) :=
  fun _ _ hd _ _ ho => Simulation.Follows.eq_some (h (Discipline.free.single.tracks_evaluate hd)) ho

theorem steady_combine (values : List Value) :
    Steady fun depth => combine (evaluate depth) values :=
  steady_of_follows fun hev => hev.combine fun _ _ => trivial

variable {env mid last : Env} {v w : Value}

theorem yields_iff_step {node : Value} :
    node.Yields env v last ↔ Ends (fun depth => step (evaluate depth) node) env v last := by
  constructor
  · rintro ⟨depth, events, h⟩
    cases depth with
    | zero => cases h
    | succ depth => exact ⟨depth, events, h⟩
  · rintro ⟨depth, events, h⟩
    exact ⟨depth + 1, events, h⟩

theorem yields_sym {name : Name} :
    (sym name).Yields env v last ↔ v = env.lookup name ∧ last = env := by
  rw [yields_iff_step]
  constructor
  · rintro ⟨depth, events, h⟩
    cases h
    exact ⟨rfl, rfl⟩
  · rintro ⟨rfl, rfl⟩
    exact ⟨0, [], rfl⟩

theorem yields_name {name : Name} (h : env.lookup name = v) : (sym name).Yields env v env :=
  yields_sym.mpr ⟨h.symm, rfl⟩

theorem yields_literal {node : Value} (h : node.isLiteral) : node.Yields env node env := by
  obtain ⟨events, he⟩ := fixedAt_literal h env
  exact ⟨1, events, he⟩

theorem settle_of_not_error (hw : w.isError = false) {name : Name} :
    settle name w env = some ⟨.nothing, env.bind name w, []⟩ := by
  cases w with
  | error fault => cases hw
  | _ => rfl

theorem yields_define {name : Name} {node : Value} (h : node.Yields env w mid)
    (hw : w.isError = false) : (define name node).Yields env .nothing (mid.bind name w) := by
  have hs := @settle_of_not_error mid w hw name
  obtain ⟨depth, events, h⟩ := h
  exact yields_iff_step.mpr ((ends_told _).mpr ⟨depth, _, bind_eq_some.mpr ⟨_, _, h, hs, rfl⟩⟩)

theorem yields_cond {clause yes no : Value} {b : Bool} (hc : clause.Yields env (.bool b) mid)
    (hb : (if b then yes else no).Yields mid v last) :
    (cond clause yes no).Yields env v last := by
  obtain ⟨here, told, hc⟩ := hc
  obtain ⟨there, later, hb⟩ := hb
  refine yields_iff_step.mpr ((ends_told _).mpr ⟨max here there, told ++ later, ?_⟩)
  have hc' := evaluate_mono (Nat.le_max_left here there) hc
  have hb' := evaluate_mono (Nat.le_max_right here there) hb
  refine bind_eq_some.mpr ⟨_, ⟨v, last, later⟩, hc', ?_, rfl⟩
  cases b <;> exact hb'

theorem steady_connect (op : Connective) (operands : List Value) :
    Steady fun depth => connect (evaluate depth) op operands :=
  steady_of_follows fun hev => hev.connect op fun _ _ => trivial

theorem yields_logic_iff {op : Connective} {operands : List Value} :
    (logic op operands).Yields env v last ↔
      Ends (fun depth => connect (evaluate depth) op operands) env v last := by
  rw [yields_iff_step]
  exact ends_told _

theorem yields_logic_nil {op : Connective} :
    (logic op []).Yields env (.bool !op.deciding) env :=
  yields_logic_iff.mpr (ends_pure.mpr ⟨rfl, rfl⟩)

/-- An operand that decides is the value of the form. -/
theorem yields_logic_decided {op : Connective} {operand : Value} {rest : List Value}
    (h : operand.Yields env (.bool op.deciding) mid) :
    (logic op (operand :: rest)).Yields env (.bool op.deciding) mid := by
  obtain ⟨depth, events, h⟩ := h
  refine yields_logic_iff.mpr ⟨depth, events ++ [], bind_eq_some.mpr ⟨_, ⟨_, mid, []⟩, h, ?_, rfl⟩⟩
  exact congrFun (if_pos rfl) mid

/-- After an operand that does not decide, the rest does. -/
theorem yields_logic_next {op : Connective} {operand : Value} {rest : List Value} {b : Bool}
    (h : operand.Yields env (.bool b) mid) (hb : b ≠ op.deciding)
    (hr : (logic op rest).Yields mid v last) : (logic op (operand :: rest)).Yields env v last := by
  obtain ⟨here, told, h⟩ := h
  obtain ⟨there, later, hr⟩ := yields_logic_iff.mp hr
  have h' := evaluate_mono (Nat.le_max_left here there) h
  have hr' := steady_connect op rest (Nat.le_max_right here there) hr
  refine yields_logic_iff.mpr ⟨max here there, told ++ later,
    bind_eq_some.mpr ⟨_, ⟨v, last, later⟩, h', ?_, rfl⟩⟩
  exact (congrFun (if_neg hb) mid).trans hr'

theorem runs_cons_iff {node : Value} {rest vs : List Value} :
    Runs (node :: rest) env vs last ↔
      ∃ v mid ws, node.Yields env v mid ∧ Runs rest mid ws last ∧ vs = v :: ws := by
  constructor
  · intro h
    cases h with
    | @cons _ _ _ o ws _ hn hr =>
      obtain ⟨depth, hn⟩ := hn
      exact ⟨o.value, o.env, ws, ⟨depth, o.events, hn⟩, hr, rfl⟩
  · rintro ⟨v, mid, ws, ⟨depth, events, hn⟩, hr, rfl⟩
    exact .cons ⟨depth, hn⟩ hr

theorem Runs.next {node : Value} {rest vs : List Value} (hn : node.Yields env v mid)
    (hr : Runs rest mid vs last) : Runs (node :: rest) env (v :: vs) last :=
  runs_cons_iff.mpr ⟨v, mid, vs, hn, hr, rfl⟩

theorem ends_all_iff {nodes vs : List Value} :
    Ends (fun depth => Eval.all (evaluate depth) nodes) env vs last ↔ Runs nodes env vs last :=
  runs_iff_all.symm

/-- A list of several cells: they are evaluated in turn, and their values are combined. -/
theorem yields_list {cell : Value} {cells : List Value} (hne : cells ≠ []) :
    (expr .plain (cell :: cells)).Yields env v last ↔
      ∃ vs mid, Runs (cell :: cells) env vs mid ∧ Combines vs mid v last := by
  have hr (depth : Nat) : reduce (evaluate depth) (cell :: cells) =
      Eval.all (evaluate depth) (cell :: cells) >>= combine (evaluate depth) := by
    cases cells with
    | nil => contradiction
    | cons second rest => rfl
  have hall : Steady fun depth => Eval.all (evaluate depth) (cell :: cells) :=
    fun _ _ hd _ _ h => all_mono hd h
  rw [yields_iff_step]
  simp only [step, ends_told, hr, ends_bind hall steady_combine, ends_all_iff]

/-- What a value that stands alone in a list comes to: a builtin without arguments is called. -/
def standing (ev : Value → Eval Value) : Value → Eval Value
  | .builtin b => if b.takesNoArguments then b.calledWith ev [] else pure (.builtin b)
  | value => pure value

theorem steady_standing (w : Value) : Steady fun depth => standing (evaluate depth) w := by
  cases w with
  | builtin b =>
    by_cases hb : b.takesNoArguments = true
    · simp only [standing, if_pos hb]
      exact steady_of_follows fun hev => hev.call trivial (by simp)
    · simp only [standing, if_neg hb]
      exact fun _ _ _ _ _ h => h
  | _ => exact fun _ _ _ _ _ h => h

theorem yields_single {cell : Value} :
    (expr .plain [cell]).Yields env v last ↔
      ∃ w mid, cell.Yields env w mid ∧ Ends (fun depth => standing (evaluate depth) w) mid v last := by
  have hr (depth : Nat) : reduce (evaluate depth) [cell] =
      evaluate depth cell >>= standing (evaluate depth) := by
    rw [reduce]
    refine congrArg _ (funext fun w => ?_)
    cases w <;> rfl
  rw [yields_iff_step]
  simp only [step, ends_told, hr, ends_bind (steady_evaluate cell) steady_standing]

/-- A list of one cell has the value of the cell, unless that is a builtin. -/
theorem yields_alone {cell : Value} (h : cell.Yields env w mid) (hw : ∀ b, w ≠ .builtin b) :
    (expr .plain [cell]).Yields env v last ↔ v = w ∧ last = mid := by
  have hs : Ends (fun depth => standing (evaluate depth) w) mid v last ↔ v = w ∧ last = mid := by
    cases w with
    | builtin b => exact (hw b rfl).elim
    | _ => exact ends_pure
  rw [yields_single, ← hs]
  constructor
  · rintro ⟨u, e, hu, hv⟩
    obtain ⟨rfl, rfl⟩ := hu.unique (steady_evaluate cell) h
    exact hv
  · intro hv
    exact ⟨w, mid, h, hv⟩

/-- The values that are handed on. -/
theorem filter_eq_self_of_not_nothing {values : List Value}
    (h : ∀ u ∈ values, u.isNothing = false) : values.filter (!·.isNothing) = values := by
  apply List.filter_eq_self.mpr
  intro u hu
  simp [h u hu]

section

variable {formals : List Name} {body : Value} {captured : Frame} {args : List Value} {fault : Fault}

theorem combine_closure (ev : Value → Eval Value) :
    combine ev (.lambda formals body captured :: args) =
      match firstFault? (args.filter (!·.isNothing)) with
      | some fault => pure (.error fault)
      | none => Closure.apply ev formals body captured (args.filter (!·.isNothing)) := rfl

theorem combines_closure (hn : ∀ a ∈ args, a.isNothing = false) (hf : firstFault? args = none) :
    Combines (.lambda formals body captured :: args) env v last ↔
      Closure.Applies formals body captured args env v last := by
  simp only [Combines, combine_closure, filter_eq_self_of_not_nothing hn, hf]

theorem combines_closure_fault (hn : ∀ a ∈ args, a.isNothing = false)
    (hf : firstFault? args = some fault) :
    Combines (.lambda formals body captured :: args) env v last ↔ v = .error fault ∧ last = env := by
  simp only [Combines, combine_closure, filter_eq_self_of_not_nothing hn, hf, ends_pure]

theorem combines_builtin {b : Builtin} (hp : ∀ a ∈ args, a.Proper)
    (ha : b.arity.accepts args.length = true) :
    Combines (.builtin b :: args) env v last ↔
      Ends (fun depth => b.operation.run (evaluate depth) args) env v last := by
  have hc (ev : Value → Eval Value) : combine ev (.builtin b :: args) =
      b.calledWith ev (args.filter (!·.isNothing)) := rfl
  have hf : firstFault? args = none := firstFault?_eq_none.mpr fun a ha => (hp a ha).1
  simp only [Combines, hc, filter_eq_self_of_not_nothing fun a ha => (hp a ha).2,
    Builtin.calledWith, Builtin.call, hf, if_pos ha, ends_told]

theorem combines_fault :
    Combines (.error fault :: args) env v last ↔ v = .error fault ∧ last = env := by
  have hc (ev : Value → Eval Value) : combine ev (.error fault :: args) = pure (.error fault) := rfl
  simp only [Combines, hc, ends_pure]

end

end Value

namespace Closure

variable {formals : List Name} {body : Value} {captured : Frame} {args : List Value}
  {env last : Env} {v : Value}

theorem applies_full (h : args.length = formals.length) :
    Applies formals body captured args env v last ↔
      (∃ inner, body.Yields (env.enclose (scope formals captured args)) v inner) ∧ last = env := by
  have hl : ¬ formals.length < args.length := by omega
  simp only [Applies, apply, if_neg hl, if_pos h, ends_told, ends_within]

theorem applies_waiting (h : args.length < formals.length) :
    Applies formals body captured args env v last ↔
      v = .lambda (formals.drop args.length) body (scope formals captured args) ∧ last = env := by
  have hl : ¬ formals.length < args.length := by omega
  have he : args.length ≠ formals.length := by omega
  simp only [Applies, apply, if_neg hl, if_neg he, ends_told, ends_pure]

/-- A closure cannot change what its caller sees. -/
theorem Applies.env_eq (h : Applies formals body captured args env v last) : last = env := by
  rcases Nat.lt_trichotomy args.length formals.length with hl | he | hg
  · exact ((applies_waiting hl).mp h).2
  · exact ((applies_full he).mp h).2
  · simp only [Applies, apply, if_pos hg, ends_pure] at h
    exact h.2

end Closure

/-- All arguments are there: the body is evaluated in a frame of its own. -/
theorem Value.combines_body {formals : List Name} {body : Value} {captured : Frame}
    {args : List Value} {env inner : Env} {v : Value} (hp : ∀ a ∈ args, a.Proper)
    (hl : args.length = formals.length)
    (hb : body.Yields (env.enclose (Closure.scope formals captured args)) v inner) :
    Combines (.lambda formals body captured :: args) env v env := by
  have hf : firstFault? args = none := firstFault?_eq_none.mpr fun a ha => (hp a ha).1
  rw [combines_closure (fun a ha => (hp a ha).2) hf, Closure.applies_full hl]
  exact ⟨⟨inner, hb⟩, rfl⟩

theorem Value.combines_closure_env {formals : List Name} {body : Value} {captured : Frame}
    {args : List Value} {env last : Env} {v : Value}
    (h : Combines (.lambda formals body captured :: args) env v last) : last = env := by
  simp only [Combines, combine_closure] at h
  cases hf : firstFault? (args.filter (!·.isNothing)) with
  | some fault =>
    simp only [hf, ends_pure] at h
    exact h.2
  | none =>
    simp only [hf] at h
    exact Closure.Applies.env_eq h

end Lisplet
