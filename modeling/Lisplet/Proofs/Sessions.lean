import Lisplet.Proofs.Acceptance
import Lisplet.Proofs.Runs
import Lisplet.Session

/-! Sessions from the outside: the forms of a source are evaluated one after another, and a state
of a session is what some number of sources leaves of a fresh one. A discipline that holds of all
that sources can write, and of what a fresh session binds, holds in every such state. -/

namespace Lisplet

namespace Value

/-- Forms evaluated one after another: their results, and the environment at the end. -/
inductive Runs : List Value → Env → List Value → Env → Prop where
  | nil (env : Env) : Runs [] env [] env
  | cons {form rest env o vs last} : form.Returns env o → Runs rest o.env vs last →
      Runs (form :: rest) env (o.value :: vs) last

theorem runs_append {xs ys : List Value} {env : Env} {vs : List Value} {last : Env} :
    Runs (xs ++ ys) env vs last ↔
      ∃ us mid ws, Runs xs env us mid ∧ Runs ys mid ws last ∧ vs = us ++ ws := by
  induction xs generalizing env vs with
  | nil =>
    constructor
    · intro h
      exact ⟨[], env, vs, .nil env, h, rfl⟩
    · rintro ⟨us, mid, ws, hx, hy, rfl⟩
      cases hx
      exact hy
  | cons x xs ih =>
    constructor
    · intro h
      cases h with
      | cons hx hr =>
        obtain ⟨us, mid, ws, hu, hw, rfl⟩ := ih.mp hr
        exact ⟨_, mid, ws, .cons hx hu, hw, rfl⟩
    · rintro ⟨us, mid, ws, hx, hy, rfl⟩
      cases hx with
      | cons hx hr => exact .cons hx (ih.mpr ⟨_, mid, ws, hr, hy, rfl⟩)

theorem Runs.length_eq {nodes vs : List Value} {env last : Env} (h : Runs nodes env vs last) :
    vs.length = nodes.length := by
  induction h with
  | nil => rfl
  | cons _ _ ih => simp [ih]

theorem Runs.unique {forms : List Value} {env : Env} {vs ws : List Value} {e e' : Env}
    (h : Runs forms env vs e) (h' : Runs forms env ws e') : vs = ws ∧ e = e' := by
  induction h generalizing ws with
  | nil =>
    cases h'
    exact ⟨rfl, rfl⟩
  | cons hf _ ih =>
    cases h' with
    | cons hf' hr' =>
      obtain rfl := hf.unique hf'
      obtain ⟨rfl, rfl⟩ := ih hr'
      exact ⟨rfl, rfl⟩

theorem all_mono {depth depth' : Nat} (hd : depth ≤ depth') {forms : List Value} {env : Env}
    {o : Outcome (List Value)} (h : Eval.all (evaluate depth) forms env = some o) :
    Eval.all (evaluate depth') forms env = some o := by
  induction forms generalizing env o with
  | nil => exact h
  | cons form rest ih =>
    obtain ⟨first, later, hf, hl, rfl⟩ := Eval.all_cons_eq_some.mp h
    exact Eval.all_cons_eq_some.mpr ⟨first, later, evaluate_mono hd hf, ih hl, rfl⟩

/-- Forms evaluated one after another, with all that is told on the way. -/
inductive Traverses : List Value → Env → List Value → Env → List Event → Prop where
  | nil (env : Env) : Traverses [] env [] env []
  | cons {form rest env o vs last later} : form.Returns env o →
      Traverses rest o.env vs last later →
      Traverses (form :: rest) env (o.value :: vs) last (o.events ++ later)

theorem traverses_iff_all {forms : List Value} {env : Env} {vs : List Value} {last : Env}
    {told : List Event} : Traverses forms env vs last told ↔
      ∃ depth, Eval.all (evaluate depth) forms env = some ⟨vs, last, told⟩ := by
  constructor
  · intro h
    induction h with
    | nil env => exact ⟨0, rfl⟩
    | @cons form rest env o vs last later hf hr ih =>
      obtain ⟨here, hf⟩ := hf
      obtain ⟨there, hr⟩ := ih
      -- One depth for all forms: that of the deepest.
      have hf' := evaluate_mono (Nat.le_max_left here there) hf
      have hr' := all_mono (Nat.le_max_right here there) hr
      exact ⟨_, Eval.all_cons_eq_some.mpr ⟨o, _, hf', hr', rfl⟩⟩
  · rintro ⟨depth, h⟩
    induction forms generalizing env vs told with
    | nil =>
      cases h
      exact .nil _
    | cons form rest ih =>
      obtain ⟨first, later, hf, hl, ho⟩ := Eval.all_cons_eq_some.mp h
      cases ho
      exact .cons ⟨depth, hf⟩ (ih hl)

theorem runs_iff_traverses {forms : List Value} {env : Env} {vs : List Value} {last : Env} :
    Runs forms env vs last ↔ ∃ told, Traverses forms env vs last told := by
  constructor
  · intro h
    induction h with
    | nil env => exact ⟨[], .nil env⟩
    | cons hf _ ih =>
      obtain ⟨told, hr⟩ := ih
      exact ⟨_, .cons hf hr⟩
  · rintro ⟨told, h⟩
    induction h with
    | nil env => exact .nil env
    | cons hf _ ih => exact .cons hf ih

theorem runs_iff_all {forms : List Value} {env : Env} {vs : List Value} {last : Env} :
    Runs forms env vs last ↔
      ∃ depth events, Eval.all (evaluate depth) forms env = some ⟨vs, last, events⟩ := by
  simp only [runs_iff_traverses, traverses_iff_all]
  exact exists_comm

/-- A sequence is evaluated by evaluating its items one after another. -/
theorem returns_seq_iff {nodes : List Value} {env : Env} {v : Value} {last : Env} :
    (∃ events, (seq nodes).Returns env ⟨v, last, events⟩) ↔
      ∃ vs, Runs nodes env vs last ∧ v = collapse vs := by
  constructor
  · rintro ⟨events, depth, h⟩
    cases depth with
    | zero => cases h
    | succ depth =>
      obtain ⟨first, second, hf, hs, he⟩ := Eval.bind_eq_some.mp h
      cases hs
      cases he
      exact ⟨first.value, runs_iff_all.mpr ⟨depth, first.events, hf⟩, rfl⟩
  · rintro ⟨vs, hr, rfl⟩
    obtain ⟨depth, events, ha⟩ := runs_iff_all.mp hr
    exact ⟨_, depth + 1, Eval.bind_eq_some.mpr ⟨_, _, ha, rfl, rfl⟩⟩

end Value

theorem Discipline.results_of_runs (D : Discipline) {forms vs : List Value} {env last : Env}
    (hn : ∀ form ∈ forms, D.Node form) (hb : env.Binds fun _ v => D.Bound v)
    (h : Value.Runs forms env vs last) :
    (∀ v ∈ vs, D.Result v) ∧ last.Binds fun _ v => D.Bound v := by
  induction h with
  | nil => exact ⟨by simp, hb⟩
  | cons hf _ ih =>
    obtain ⟨hform, hrest⟩ := List.forall_mem_cons.mp hn
    obtain ⟨depth, hf⟩ := hf
    obtain ⟨hv, hb'⟩ := D.result_of_evaluate hform hb hf
    obtain ⟨hvs, hlast⟩ := ih hrest hb'
    exact ⟨List.forall_mem_cons.mpr ⟨hv, hvs⟩, hlast⟩

/-- What can stand in a source: closures there have formals and were given nothing yet, and
there are no builtins, sequences, faults or missing values. -/
def Value.Written : Value → Prop
  | .lambda formals _ captured => formals ≠ [] ∧ captured = []
  | .builtin _ | .seq _ | .error _ | .nothing => False
  | _ => True

namespace Grammar

open Value

theorem written_lambda {formals : List Name} {body : Value} (hf : formals ≠ [])
    (hb : body.Everywhere Written) : (Value.lambda formals body []).Everywhere Written :=
  everywhere_lambda.mpr ⟨⟨hf, rfl⟩, hb, by simp⟩

mutual

theorem Datum.written {ks : List Token.Kind} {v : Value} : Datum ks v → v.Everywhere Written
  | .atom a => by cases a <;> exact (everywhere_leaf rfl).mpr trivial
  | .list _ h => everywhere_expr.mpr ⟨trivial, h.written⟩
  | .marked _ h => everywhere_expr.mpr ⟨trivial, h.written⟩
  | .branch ha hb hc => everywhere_cond.mpr ⟨trivial, ha.written, hb.written, hc.written⟩
  | .define _ _ h => everywhere_define.mpr ⟨trivial, h.written⟩
  | .function hne h => everywhere_define.mpr ⟨trivial, written_lambda hne h.written⟩
  | .lambda hne h => written_lambda hne h.written
  | .logic _ _ h => everywhere_logic.mpr ⟨trivial, h.written⟩
  | .bindings _ h => everywhere_expr.mpr ⟨trivial, h.written⟩

theorem Data.written {ks : List Token.Kind} {vs : List Value} :
    Data ks vs → ∀ v ∈ vs, v.Everywhere Written
  | .nil => by simp
  | .cons h hs => List.forall_mem_cons.mpr ⟨h.written, hs.written⟩

theorem Bindings.written {ks : List Token.Kind} {ds : List Value} :
    Bindings ks ds → ∀ d ∈ ds, d.Everywhere Written
  | .nil => by simp
  | .cons h hs =>
    List.forall_mem_cons.mpr ⟨everywhere_define.mpr ⟨trivial, h.written⟩, hs.written⟩

end

end Grammar

namespace Program

theorem mem_forms_ofSegments {room : Nat} {segments : List Segment} {v : Value}
    (h : v ∈ (ofSegments room segments).forms) : ∃ s ∈ segments, s.read = .ok v := by
  fun_induction ofSegments room segments with
  | case1 => cases h
  | case2 => cases h
  | case3 room s rest value hs ih =>
    rcases List.mem_cons.mp h with rfl | h
    · exact ⟨s, List.mem_cons_self, hs⟩
    · obtain ⟨s', hm, hr⟩ := ih h
      exact ⟨s', List.mem_cons_of_mem _ hm, hr⟩
  | case4 room s rest problem hs ih =>
    obtain ⟨s', hm, hr⟩ := ih h
    exact ⟨s', List.mem_cons_of_mem _ hm, hr⟩

theorem written_forms (text : String) :
    ∀ form ∈ (ofText text).forms, form.Everywhere Value.Written := by
  intro form hm
  unfold ofText at hm
  dsimp only at hm
  split at hm
  · obtain ⟨s, -, hs⟩ := mem_forms_ofSegments hm
    obtain ⟨t, -, ht⟩ := Segment.read_eq_ok.mp hs
    exact (t.datum_of_read ht).written
  · cases hm

end Program

theorem Env.Binds.foldl_bind {α : Type} {P : Name → Value → Prop} {name : α → Name}
    {value : α → Value} {items : List α} (h : ∀ a ∈ items, P (name a) (value a)) {env : Env}
    (he : env.Binds P) : (items.foldl (fun e a => e.bind (name a) (value a)) env).Binds P := by
  induction items generalizing env with
  | nil => exact he
  | cons a rest ih =>
    obtain ⟨ha, hr⟩ := List.forall_mem_cons.mp h
    exact ih hr (he.bind ha)

/-- Before the prelude there are the builtins of the catalogue and some doubles. -/
theorem Env.initial_binds (context : Context) {P : Name → Value → Prop}
    (hb : ∀ b ∈ Builtin.catalogue, P b.name (.builtin b)) (hf : ∀ name x, P name (.float x)) :
    (Env.initial context).Binds P := by
  have he : (Env.empty context).Binds P := by simp [Binds, frames, empty]
  exact (he.foldl_bind hb).foldl_bind fun c _ => hf c.1 c.2

namespace Session

/-- Some depth suffices to run the source, and this is the answer and what is left. -/
def Executes (text : String) (env : Env) (answer : Except Report Value) (last : Env) : Prop :=
  ∃ depth events, execute depth text env = some ⟨answer, last, events⟩

/-- A source with problems is answered with a report and changes nothing. -/
theorem execute_of_problems {text : String} (h : (Program.ofText text).problems ≠ [])
    (depth : Nat) (env : Env) :
    execute depth text env =
      some ⟨.error ((Source.mk sourceName text).report (Program.ofText text).problems), env, []⟩ := by
  obtain ⟨problem, rest, hp⟩ := List.exists_cons_of_ne_nil h
  simp only [execute, hp]
  rfl

/-- The results of all forms as one answer. -/
def answerOf : List Value → Value
  | [] => .nothing
  | vs => (Value.collapse vs).withoutNothing

theorem executes_iff {text : String} (h : (Program.ofText text).problems = []) {env : Env}
    {answer : Except Report Value} {last : Env} :
    Executes text env answer last ↔
      ∃ vs, Value.Runs (Program.ofText text).forms env vs last ∧ answer = .ok (answerOf vs) := by
  cases hf : (Program.ofText text).forms with
  | nil =>
    have he (depth : Nat) : execute depth text env = some ⟨.ok .nothing, env, []⟩ := by
      simp only [execute, h, hf]
      rfl
    constructor
    · rintro ⟨depth, events, ho⟩
      rw [he] at ho
      cases ho
      exact ⟨[], .nil _, rfl⟩
    · rintro ⟨vs, hr, rfl⟩
      cases hr
      exact ⟨0, [], he 0⟩
  | cons form rest =>
    have he (depth : Nat) : execute depth text env =
        (Value.evaluate depth (.seq (form :: rest)) >>= fun v => pure (.ok v.withoutNothing)) env := by
      simp only [execute, h, hf]
    have ha {vs : List Value} (hr : Value.Runs (form :: rest) env vs last) :
        answerOf vs = (Value.collapse vs).withoutNothing := by
      cases hr
      rfl
    constructor
    · rintro ⟨depth, events, ho⟩
      rw [he] at ho
      obtain ⟨first, second, hv, hp, hs⟩ := Eval.bind_eq_some.mp ho
      cases hp
      cases hs
      obtain ⟨vs, hr, hc⟩ := Value.returns_seq_iff.mp ⟨first.events, depth, hv⟩
      exact ⟨vs, hr, by rw [ha hr, ← hc]⟩
    · rintro ⟨vs, hr, rfl⟩
      obtain ⟨events, depth, hv⟩ := Value.returns_seq_iff.mpr ⟨vs, hr, rfl⟩
      refine ⟨depth, events ++ [], ?_⟩
      rw [he, ha hr]
      exact Eval.bind_eq_some.mpr ⟨_, _, hv, rfl, rfl⟩

/-- The states of sessions with a context: a fresh one, and what sources leave of a state. -/
inductive Reached (context : Context) : Env → Prop where
  | start : Reached context (start context).1
  | execute {env : Env} {text : String} {answer : Except Report Value} {last : Env}
      (h : Reached context env) (he : Executes text env answer last) : Reached context last

theorem start_eq (context : Context) : start context = loaded (Env.initial context)
    (Value.evaluate Prelude.depth (.seq Prelude.forms) (Env.initial context)) := by
  unfold start
  exact rfl

theorem binds_loaded {P : Name → Value → Prop} {env : Env} {result : Option (Outcome Value)}
    (h : env.Binds P) (ho : ∀ o, result = some o → o.env.Binds P) :
    (loaded env result).1.Binds P := by
  cases result with
  | none => exact h
  | some o => exact ho o rfl

/-- What is left of a fresh session after some sources, from the first to the last. -/
inductive After (context : Context) : List String → Env → Prop where
  | start : After context [] (start context).1
  | execute {texts : List String} {env : Env} {text : String} {answer : Except Report Value}
      {last : Env} (h : After context texts env) (he : Executes text env answer last) :
      After context (texts ++ [text]) last

theorem Reached.exists_after {context : Context} {env : Env} (h : Reached context env) :
    ∃ texts, After context texts env := by
  induction h with
  | start => exact ⟨[], .start⟩
  | execute _ he ih =>
    obtain ⟨texts, ha⟩ := ih
    exact ⟨_, ha.execute he⟩

/-- What a discipline says of the forms of some sources, and of what a fresh session binds, it says
of the bindings that the sources leave. A source with problems has no say. -/
theorem After.binds (D : Discipline) (hb : ∀ b ∈ Builtin.catalogue, D.Bound (.builtin b))
    (hf : ∀ x, D.Bound (.float x)) {context : Context} {texts : List String} {env : Env}
    (h : After context texts env)
    (hp : ∀ text ∈ Prelude.definitions, ∀ form ∈ (Program.ofText text).forms, D.Node form)
    (hn : ∀ text ∈ texts, (Program.ofText text).problems = [] →
      ∀ form ∈ (Program.ofText text).forms, D.Node form) :
    env.Binds fun _ v => D.Bound v := by
  induction h with
  | start =>
    have hi : (Env.initial context).Binds fun _ v => D.Bound v :=
      Env.initial_binds context hb fun _ => hf
    rw [start_eq]
    refine binds_loaded hi ?_
    intro o hl
    obtain ⟨vs, hr, -⟩ := Value.returns_seq_iff.mp ⟨o.events, Prelude.depth, hl⟩
    refine (D.results_of_runs ?_ hi hr).2
    intro form hm
    obtain ⟨text, ht, hm⟩ := List.mem_flatMap.mp hm
    exact hp text ht form hm
  | @execute texts env text answer last _ he ih =>
    have henv := ih fun t ht => hn t (List.mem_append_left _ ht)
    by_cases hq : (Program.ofText text).problems = []
    · obtain ⟨vs, hr, -⟩ := (executes_iff hq).mp he
      exact (D.results_of_runs (hn text (List.mem_append_right _ List.mem_cons_self) hq) henv hr).2
    · obtain ⟨depth, events, ho⟩ := he
      rw [execute_of_problems hq] at ho
      cases ho
      exact henv

/-- What a discipline says of all that can be written holds in every state of a session. -/
theorem Reached.binds (D : Discipline)
    (hn : ∀ form : Value, form.Everywhere Value.Written → D.Node form)
    (hb : ∀ b ∈ Builtin.catalogue, D.Bound (.builtin b)) (hf : ∀ x, D.Bound (.float x))
    {context : Context} {env : Env} (h : Reached context env) :
    env.Binds fun _ v => D.Bound v := by
  obtain ⟨texts, ha⟩ := h.exists_after
  refine ha.binds D hb hf ?_ ?_
  · intro text _ form hm
    exact hn form (Program.written_forms text form hm)
  · intro text _ _ form hm
    exact hn form (Program.written_forms text form hm)

end Session

end Lisplet
