import Lisplet.Proofs.Sessions

/-! Tracing never influences evaluation. Two environments with the same frames are followed side by
side under any two contexts: evaluation reads the context only to tell events, so values and frames
stay the same, and where tracing is off nothing is told. Sessions inherit this call by call, from
the prelude on. -/

namespace Lisplet

namespace Env

/-- The same frames under another context. -/
def under (context : Context) (env : Env) : Env := ⟨env.frame, env.outer, context⟩

theorem eq_under {e e' : Env} (h : e'.frames = e.frames) : e' = e.under e'.context := by
  obtain ⟨frame, outer, context⟩ := e
  obtain ⟨frame', outer', context'⟩ := e'
  simp only [frames, List.cons.injEq] at h
  obtain ⟨rfl, rfl⟩ := h
  rfl

end Env

/-- Events told under two contexts: where a context does not trace there are none. -/
def Quiet (c c' : Context) (xs xs' : List Event) : Prop :=
  (c.trace = false → xs = []) ∧ (c'.trace = false → xs' = [])

theorem Quiet.append {c c' : Context} {xs xs' ys ys' : List Event} (h : Quiet c c' xs xs')
    (k : Quiet c c' ys ys') : Quiet c c' (xs ++ ys) (xs' ++ ys') := by
  refine ⟨?_, ?_⟩
  · intro ht
    rw [h.1 ht, k.1 ht, List.append_nil]
  · intro ht
    rw [h.2 ht, k.2 ht, List.append_nil]

theorem quiet_event (c c' : Context) (x : Event) :
    Quiet c c' (if c.trace then [x] else []) (if c'.trace then [x] else []) := by
  refine ⟨?_, ?_⟩
  · intro ht
    simp [ht]
  · intro ht
    simp [ht]

/-- The same frames under two contexts. -/
def recontexted (c c' : Context) : Coupling where
  toDiscipline := .free
  Related e e' := e.context = c ∧ e' = e.under c'
  lookup h _ := ⟨by rw [h.2]; rfl, trivial⟩
  symbols h _ _ := by rw [h.2]; rfl
  bind h _ := ⟨h.1, by rw [h.2]; rfl⟩
  enclose h _ := ⟨h.1, by rw [h.2]; rfl⟩

def retraced (c c' : Context) : Simulation where
  toCoupling := recontexted c c'
  Told := Quiet c c'
  told_nil := ⟨fun _ => rfl, fun _ => rfl⟩
  told_append := Quiet.append
  told_event x h := by
    rw [h.1, h.2]
    exact quiet_event c c' x

/-- The computation ends alike under every context, and tells nothing where tracing is off. -/
def Eval.Indifferent {α : Type} (x : Eval α) : Prop :=
  ∀ ⦃env : Env⦄ ⦃o : Outcome α⦄, x env = some o → o.env.context = env.context ∧
    ∀ context : Context, ∃ events,
      x (env.under context) = some ⟨o.value, o.env.under context, events⟩ ∧
      Quiet env.context context o.events events

namespace Eval

variable {α β : Type}

theorem indifferent_pure (a : α) : Indifferent (pure a : Eval α) := by
  intro env o h
  cases h
  exact ⟨rfl, fun context => ⟨[], rfl, fun _ => rfl, fun _ => rfl⟩⟩

theorem Indifferent.bind {x : Eval α} {f : α → Eval β} (hx : x.Indifferent)
    (hf : ∀ a, (f a).Indifferent) : (x >>= f).Indifferent := by
  intro env o h
  obtain ⟨first, second, h₁, h₂, rfl⟩ := bind_eq_some.mp h
  obtain ⟨hc₁, hu₁⟩ := hx h₁
  obtain ⟨hc₂, hu₂⟩ := hf _ h₂
  refine ⟨hc₂.trans hc₁, ?_⟩
  intro context
  obtain ⟨told, h₁', hq₁⟩ := hu₁ context
  obtain ⟨later, h₂', hq₂⟩ := hu₂ context
  rw [hc₁] at hq₂
  exact ⟨told ++ later, bind_eq_some.mpr ⟨_, _, h₁', h₂', rfl⟩, hq₁.append hq₂⟩

theorem Indifferent.quiet {x : Eval α} (hx : x.Indifferent) {env : Env} {o : Outcome α}
    (h : x env = some o) (hc : env.context.trace = false) : o.events = [] := by
  obtain ⟨events, -, hq⟩ := (hx h).2 env.context
  exact hq.1 hc

end Eval

theorem Value.indifferent_evaluate (depth : Nat) (node : Value) :
    (evaluate depth node).Indifferent := by
  have follow {env : Env} {o : Outcome Value} (h : evaluate depth node env = some o)
      (context : Context) := (retraced env.context context).tracks_evaluate
        (Nat.le_refl depth) trivial ⟨rfl, rfl⟩ h
  intro env o h
  refine ⟨?_, ?_⟩
  · obtain ⟨_, -, hm⟩ := follow h env.context
    exact hm.env.1
  · intro context
    obtain ⟨⟨value, last, events⟩, ho, hm⟩ := follow h context
    obtain rfl : value = o.value := hm.value
    obtain rfl : last = o.env.under context := hm.env.2
    exact ⟨events, ho, hm.events⟩

namespace Session

theorem indifferent_execute (depth : Nat) (text : String) : (execute depth text).Indifferent := by
  unfold execute
  dsimp only
  split
  · exact Eval.indifferent_pure _
  · exact (Value.indifferent_evaluate depth _).bind fun v => Eval.indifferent_pure _
  · exact Eval.indifferent_pure _

theorem initial_under (c c' : Context) : Env.initial c' = (Env.initial c).under c' := by
  have hb {α : Type} (name : α → Name) (value : α → Value) (items : List α) (env : Env) :
      (items.foldl (fun e a => e.bind (name a) (value a)) env).under c' =
        items.foldl (fun e a => e.bind (name a) (value a)) (env.under c') := by
    induction items generalizing env with
    | nil => rfl
    | cons a rest ih => exact ih (env.bind (name a) (value a))
  simp only [Env.initial, Env.withBuiltins, Env.withConstants, hb]
  rfl

theorem start_under (c c' : Context) : (start c').1 = (start c).1.under c' := by
  rw [start_eq, start_eq, initial_under c c']
  cases h : Value.evaluate Prelude.depth (.seq Prelude.forms) (Env.initial c) with
  | some o =>
    obtain ⟨events, he, -⟩ := (Value.indifferent_evaluate _ _ h).2 c'
    rw [he]
    rfl
  | none =>
    -- A run under the other context would give one under this context.
    cases h' : Value.evaluate Prelude.depth (.seq Prelude.forms) ((Env.initial c).under c') with
    | none => rfl
    | some o' =>
      obtain ⟨events, he, -⟩ := (Value.indifferent_evaluate _ _ h').2 c
      rw [← initial_under c c', ← initial_under c' c, h] at he
      cases he

theorem start_quiet {context : Context} (hc : context.trace = false) :
    ∀ e ∈ (start context).2, e.target ≠ "eta::eval" := by
  rw [start_eq]
  cases h : Value.evaluate Prelude.depth (.seq Prelude.forms) (Env.initial context) with
  | none => simp [loaded]
  | some o =>
    have hi : (Env.initial context).context = context := by
      rw [initial_under context context]
      rfl
    have ho : o.events = [] := (Value.indifferent_evaluate _ _).quiet h (by rw [hi, hc])
    simp [loaded, ho, Event.target]

/-- What a host asks of a session. -/
inductive Call where
  | execute (text : String)
  | bind (name : Name) (value : Value)

/-- Calls made one after another: the answers to the sources among them, what is told, and the
environment at the end. -/
inductive Performs : List Call → Env → List (Except Report Value) → List Event → Env → Prop where
  | nil (env : Env) : Performs [] env [] [] env
  | execute {text calls env depth o answers events last} :
      execute depth text env = some o → Performs calls o.env answers events last →
      Performs (.execute text :: calls) env (o.value :: answers) (o.events ++ events) last
  | bind {name value calls env answers events last} :
      Performs calls (env.bind name value) answers events last →
      Performs (.bind name value :: calls) env answers events last

theorem Performs.under {calls : List Call} {env : Env} {answers : List (Except Report Value)}
    {events : List Event} {last : Env} (h : Performs calls env answers events last)
    (context : Context) :
    ∃ events', Performs calls (env.under context) answers events' (last.under context) := by
  induction h with
  | nil env => exact ⟨[], .nil _⟩
  | execute he _ ih =>
    obtain ⟨told, he', -⟩ := (indifferent_execute _ _ he).2 context
    obtain ⟨later, hr⟩ := ih
    exact ⟨told ++ later, .execute he' hr⟩
  | bind _ ih =>
    obtain ⟨later, hr⟩ := ih
    exact ⟨later, .bind hr⟩

theorem Performs.quiet {calls : List Call} {env : Env} {answers : List (Except Report Value)}
    {events : List Event} {last : Env} (h : Performs calls env answers events last)
    (hc : env.context.trace = false) : events = [] := by
  induction h with
  | nil => rfl
  | execute he _ ih =>
    have hn := (indifferent_execute _ _ he).1
    rw [(indifferent_execute _ _).quiet he hc, ih (by rw [hn, hc]), List.append_nil]
  | bind _ ih => exact ih hc

theorem exists_performs_of_context (c c' : Context) {calls : List Call}
    {answers : List (Except Report Value)} {frame : Frame}
    (h : ∃ events last, Performs calls (start c).1 answers events last ∧ last.frame = frame) :
    ∃ events last, Performs calls (start c').1 answers events last ∧ last.frame = frame := by
  obtain ⟨events, last, hp, rfl⟩ := h
  obtain ⟨events', hp'⟩ := hp.under c'
  rw [start_under c c']
  exact ⟨events', _, hp', rfl⟩

end Session

theorem Value.Returns.of_frames {node : Value} {e e' : Env} (h : e'.frames = e.frames)
    {o : Outcome Value} (ho : node.Returns e o) :
    ∃ o', node.Returns e' o' ∧ o'.value = o.value ∧ o'.env.frames = o.env.frames := by
  obtain ⟨depth, ho⟩ := ho
  obtain ⟨events, ho', -⟩ := (indifferent_evaluate depth node ho).2 e'.context
  rw [← Env.eq_under h] at ho'
  exact ⟨_, ⟨depth, ho'⟩, rfl, rfl⟩

namespace Session

/-- A node returns in both of two environments that differ at most in the context or in neither,
with the same value and the same frames, and tells nothing where tracing is off. Sessions with and
without tracing give the same answers to the same calls and leave the same global frame, and the
one without never tells a step of evaluation. -/
theorem tracing_transparent :
    (∀ (node : Value) (e e' : Env), e'.frames = e.frames →
      ((∃ o, node.Returns e o) ↔ ∃ o', node.Returns e' o') ∧
      ∀ o o', node.Returns e o → node.Returns e' o' →
        o'.value = o.value ∧ o'.env.frames = o.env.frames) ∧
    (∀ (node : Value) (e : Env) (o : Outcome Value), e.context.trace = false →
      node.Returns e o → o.events = []) ∧
    (∀ (calls : List Call) (answers : List (Except Report Value)) (frame : Frame),
      (∃ events last, Performs calls (start ⟨true⟩).1 answers events last ∧ last.frame = frame) ↔
        ∃ events last, Performs calls (start ⟨false⟩).1 answers events last ∧
          last.frame = frame) ∧
    ∀ (calls : List Call) (answers : List (Except Report Value)) (events : List Event) (last : Env),
      Performs calls (start ⟨false⟩).1 answers events last →
        ∀ e ∈ (start ⟨false⟩).2 ++ events, e.target ≠ "eta::eval" := by
  refine ⟨?_, ?_, ?_, ?_⟩
  · intro node e e' h
    refine ⟨⟨?_, ?_⟩, ?_⟩
    · rintro ⟨o, ho⟩
      obtain ⟨o', ho', -⟩ := ho.of_frames h
      exact ⟨o', ho'⟩
    · rintro ⟨o', ho'⟩
      obtain ⟨o, ho, -⟩ := ho'.of_frames h.symm
      exact ⟨o, ho⟩
    · intro o o' ho ho'
      obtain ⟨o₁, ho₁, hv, hf⟩ := ho.of_frames h
      obtain rfl := ho'.unique ho₁
      exact ⟨hv, hf⟩
  · intro node e o hc ho
    obtain ⟨depth, ho⟩ := ho
    exact (Value.indifferent_evaluate depth node).quiet ho hc
  · intro calls answers frame
    exact ⟨exists_performs_of_context _ _, exists_performs_of_context _ _⟩
  · intro calls answers events last hp e he
    have hc : (start ⟨false⟩).1.context.trace = false := by
      rw [start_under ⟨true⟩ ⟨false⟩]
      rfl
    rw [hp.quiet hc, List.append_nil] at he
    exact start_quiet rfl e he

/-- A definition that is told under one context only, and a session that binds a name and asks for
it. -/
theorem tracing_transparent_binding :
    (∃ o o' : Outcome Value, o.events = [.define "x"] ∧ o'.events = [] ∧
      (Value.define "x" (.int 1)).Returns ⟨[], [], ⟨true⟩⟩ o ∧
      (Value.define "x" (.int 1)).Returns ⟨[], [], ⟨false⟩⟩ o' ∧
      o'.value = o.value ∧ o'.env.frames = o.env.frames) ∧
    ∃ events last, Performs [.bind "y" (.int 2), .execute "y"] (start ⟨false⟩).1 [.ok (.int 2)]
        events last ∧
      ∀ e ∈ (start ⟨false⟩).2 ++ events, e.target ≠ "eta::eval" := by
  refine ⟨?_, ?_⟩
  · have on : (Value.define "x" (.int 1)).Returns ⟨[], [], ⟨true⟩⟩
        ⟨.nothing, ⟨[("x", .int 1)], [], ⟨true⟩⟩, [.define "x"]⟩ := ⟨2, rfl⟩
    have both := tracing_transparent.1 (.define "x" (.int 1)) ⟨[], [], ⟨true⟩⟩ ⟨[], [], ⟨false⟩⟩ rfl
    obtain ⟨o', off⟩ := both.1.mp ⟨_, on⟩
    have hq : o'.events = [] := tracing_transparent.2.1 _ _ o' rfl off
    exact ⟨_, o', rfl, hq, on, off, both.2 _ _ on off⟩
  · have hp : Program.ofText "y" = ⟨[.sym "y"], []⟩ := rfl
    generalize hs : (start ⟨true⟩).1 = fresh
    let env := fresh.bind "y" (.int 2)
    have hv : (Value.sym "y").Returns env ⟨.int 2, env, []⟩ := by
      have hl : env.lookup "y" = .int 2 := by rw [Env.lookup_bind, if_pos rfl]
      exact ⟨1, by rw [← hl]; rfl⟩
    have he : Executes "y" env (.ok (.int 2)) env := by
      refine (executes_iff (by rw [hp])).mpr ⟨[.int 2], ?_, rfl⟩
      rw [hp]
      exact .cons hv (.nil env)
    obtain ⟨depth, told, he⟩ := he
    have on : Performs [.bind "y" (.int 2), .execute "y"] (start ⟨true⟩).1 [.ok (.int 2)]
        (told ++ []) env := by
      rw [hs]
      exact .bind (.execute he (.nil env))
    obtain ⟨events, last, off, -⟩ := (tracing_transparent.2.2.1 _ _ _).mp ⟨_, _, on, rfl⟩
    exact ⟨events, last, off, tracing_transparent.2.2.2 _ _ _ _ off⟩

end Session

end Lisplet
