import Lisplet.Proofs.Outcomes

/-! Lists of several cells. All cells are evaluated in turn, whatever they come to. Then the leftmost
fault among their values wins over every kind of head, and only where there is none is the head
applied to the rest. -/

namespace Lisplet

/-- What is told of an event here. -/
def Env.told (env : Env) (e : Event) : List Event := if env.context.trace then [e] else []

namespace Value

/-- The values that are handed on; a definition has none. -/
def present (values : List Value) : List Value := values.filter (!·.isNothing)

def isFunction : Value → Bool
  | .lambda _ _ _ | .builtin _ => true
  | _ => false

/-- The fault is among the values, and no other stands before it. -/
def Leftmost (fault : Fault) (values : List Value) : Prop :=
  ∃ before after, values = before ++ .error fault :: after ∧ ∀ v ∈ before, v.isError = false

theorem fault?_eq_some {v : Value} {fault : Fault} : v.fault? = some fault ↔ v = .error fault := by
  cases v <;> simp [fault?]

theorem firstFault?_eq_some {values : List Value} {fault : Fault} :
    firstFault? values = some fault ↔ Leftmost fault values := by
  constructor
  · intro h
    obtain ⟨before, v, after, rfl, hv, hb⟩ := List.findSome?_eq_some_iff.mp h
    obtain rfl := fault?_eq_some.mp hv
    exact ⟨before, after, rfl, fun u hu => by simp [isError, hb u hu]⟩
  · rintro ⟨before, after, rfl, hb⟩
    have hn : firstFault? before = none := firstFault?_eq_none.mpr hb
    rw [firstFault?, List.findSome?_append, ← firstFault?, hn]
    rfl

/-- A value that is not handed on is no fault. -/
theorem firstFault?_present (values : List Value) :
    firstFault? (present values) = firstFault? values := by
  induction values with
  | nil => rfl
  | cons v rest ih =>
    cases v with
    | error fault => rfl
    | _ => exact ih

/-- The call of a builtin is told before its arguments are looked at, so also where one of them is
a fault. -/
def announced (env : Env) : List Value → List Event
  | .builtin b :: args => env.told (.call b args.length)
  | _ => []

/-- What a list comes to whose cells have these values, in the environment that they left. -/
inductive Concludes (values : List Value) (env : Env) : Outcome Value → Prop where
  | fault {fault} : Leftmost fault values →
      Concludes values env ⟨.error fault, env, announced env (present values)⟩
  | nothing : (∀ v ∈ values, v.isError = false) → present values = [] →
      Concludes values env ⟨.nothing, env, []⟩
  | closure {formals body captured args o} : (∀ v ∈ values, v.isError = false) →
      present values = .lambda formals body captured :: args →
      (∃ depth, Closure.apply (evaluate depth) formals body captured args env = some o) →
      Concludes values env o
  | builtin {b args o} : (∀ v ∈ values, v.isError = false) → present values = .builtin b :: args →
      (∃ depth, b.calledWith (evaluate depth) args env = some o) → Concludes values env o
  | alone {v} : (∀ v ∈ values, v.isError = false) → present values = [v] → v.isFunction = false →
      Concludes values env ⟨v, env, []⟩
  | several {first second rest} : (∀ v ∈ values, v.isError = false) →
      present values = first :: second :: rest → first.isFunction = false →
      Concludes values env ⟨.seq (first :: second :: rest), env, []⟩

section

variable {values : List Value} {fault : Fault}

/-- The head decides where faults are looked for, but not which one is found. Evaluation is not
called for: neither a body nor code among the arguments is run. -/
theorem combine_fault (h : Leftmost fault values) (ev : Value → Eval Value) (env : Env) :
    combine ev values env = some ⟨.error fault, env, announced env (present values)⟩ := by
  have hf : firstFault? (present values) = some fault := by
    rw [firstFault?_present, firstFault?_eq_some.mpr h]
  unfold combine
  rw [← present]
  generalize present values = kept at hf ⊢
  cases kept with
  | nil => cases hf
  | cons head args =>
    cases head with
    | lambda formals body captured =>
      have ha : firstFault? args = some fault := hf
      simp only [ha]
      rfl
    | builtin b =>
      have ha : firstFault? args = some fault := hf
      simp only [Builtin.calledWith, Builtin.call, ha]
      refine Eval.bind_eq_some.mpr ⟨⟨(), env, env.told (.call b args.length)⟩,
        ⟨.error fault, env, []⟩, rfl, rfl, ?_⟩
      rw [List.append_nil]
      rfl
    | _ =>
      simp only [hf]
      rfl

/-- The values of a list without fault, put together. -/
def application (ev : Value → Eval Value) : List Value → Eval Value
  | [] => pure .nothing
  | .lambda formals body captured :: args => Closure.apply ev formals body captured args
  | .builtin b :: args => b.calledWith ev args
  | items => pure (collapse items)

theorem combine_faultless (h : ∀ v ∈ values, v.isError = false) (ev : Value → Eval Value) :
    combine ev values = application ev (present values) := by
  have hf : firstFault? (present values) = none := by
    rw [firstFault?_present, firstFault?_eq_none.mpr h]
  unfold combine
  rw [← present]
  generalize present values = kept at hf ⊢
  cases kept with
  | nil => rfl
  | cons head args =>
    cases head with
    | lambda formals body captured =>
      have ha : firstFault? args = none := hf
      simp only [ha, application]
    | builtin b => rfl
    | _ =>
      simp only [hf]
      rfl

theorem concludes_iff {env : Env} {o : Outcome Value} :
    Concludes values env o ↔ ∃ depth, combine (evaluate depth) values env = some o := by
  constructor
  · intro h
    cases h with
    | fault hf => exact ⟨0, combine_fault hf _ _⟩
    | closure hn hp ho | builtin hn hp ho =>
      obtain ⟨depth, ho⟩ := ho
      exact ⟨depth, by rw [combine_faultless hn, hp]; exact ho⟩
    | nothing hn hp => exact ⟨0, by rw [combine_faultless hn, hp]; rfl⟩
    | @alone v hn hp hv =>
      refine ⟨0, ?_⟩
      rw [combine_faultless hn, hp]
      cases v with
      | lambda | builtin => cases hv
      | _ => rfl
    | @several first second rest hn hp hv =>
      refine ⟨0, ?_⟩
      rw [combine_faultless hn, hp]
      cases first with
      | lambda | builtin => cases hv
      | _ => rfl
  · rintro ⟨depth, h⟩
    cases hf : firstFault? values with
    | some fault =>
      have hl := firstFault?_eq_some.mp hf
      rw [combine_fault hl] at h
      cases h
      exact .fault hl
    | none =>
      have hn := firstFault?_eq_none.mp hf
      rw [combine_faultless hn] at h
      cases hp : present values with
      | nil =>
        rw [hp] at h
        cases h
        exact .nothing hn hp
      | cons head args =>
        rw [hp] at h
        cases head with
        | lambda => exact .closure hn hp ⟨depth, h⟩
        | builtin => exact .builtin hn hp ⟨depth, h⟩
        | _ =>
          cases args with
          | nil =>
            cases h
            exact .alone hn hp rfl
          | cons second rest =>
            cases h
            exact .several hn hp rfl

end

/-- What is told of a list of several cells, of each cell in turn, and of their values. -/
theorem returns_list_iff {first second : Value} {rest : List Value} {env : Env}
    {o : Outcome Value} :
    (expr .plain (first :: second :: rest)).Returns env o ↔
      ∃ values mid told, Traverses (first :: second :: rest) env values mid told ∧
        ∃ last, (∃ depth, combine (evaluate depth) values mid = some last) ∧
          o = ⟨last.value, last.env,
            env.told (.reduce (first :: second :: rest)) ++ (told ++ last.events)⟩ := by
  simp only [traverses_iff_all]
  constructor
  · rintro ⟨depth, h⟩
    cases depth with
    | zero => cases h
    | succ depth =>
      obtain ⟨start, reduced, hs, hr, rfl⟩ := Eval.bind_eq_some.mp h
      cases hs
      obtain ⟨cells, last, hc, hl, rfl⟩ := Eval.bind_eq_some.mp hr
      exact ⟨_, _, _, ⟨depth, hc⟩, last, ⟨depth, hl⟩, rfl⟩
  · rintro ⟨values, mid, told, ⟨here, hc⟩, last, ⟨there, hl⟩, rfl⟩
    -- One depth for the cells and for what is applied.
    have hc' := all_mono (Nat.le_max_left here there) hc
    have hl' := steady_combine values (Nat.le_max_right here there) hl
    exact ⟨max here there + 1, Eval.bind_eq_some.mpr
      ⟨⟨(), env, _⟩, _, rfl, Eval.bind_eq_some.mpr ⟨_, last, hc', hl', rfl⟩, rfl⟩⟩

/-- All cells of a list are evaluated, each once and in the environment that the one before left. A
fault among their values wins, the leftmost one, over every head: the environment stays as the last
cell left it, and what is left to do is the same for every evaluator, since none is asked. Without
a fault, what is handed on is applied, or is data. -/
theorem leftmost_fault_wins :
    (∀ (first second : Value) (rest : List Value) (env : Env) (o : Outcome Value),
      (expr .plain (first :: second :: rest)).Returns env o ↔
        ∃ values mid told, Traverses (first :: second :: rest) env values mid told ∧
          ∃ last, Concludes values mid last ∧
            o = ⟨last.value, last.env,
              env.told (.reduce (first :: second :: rest)) ++ (told ++ last.events)⟩) ∧
    ∀ (values : List Value) (fault : Fault), Leftmost fault values →
      (∀ env o, Concludes values env o ↔
        o = ⟨.error fault, env, announced env (present values)⟩) ∧
      ∀ (ev : Value → Eval Value) (env : Env),
        combine ev values env = some ⟨.error fault, env, announced env (present values)⟩ := by
  simp only [concludes_iff]
  refine ⟨fun _ _ _ _ _ => returns_list_iff, fun values fault h => ⟨fun env o => ?_, combine_fault h⟩⟩
  constructor
  · rintro ⟨depth, ho⟩
    rw [combine_fault h] at ho
    exact (Option.some.inj ho).symm
  · rintro rfl
    exact ⟨0, combine_fault h _ _⟩

theorem leftmost_fault_wins_between_definitions :
    (expr .plain [.define "z" (.int 1), .builtin ⟨"list", .atLeast 0, .list⟩, .sym "u",
        .define "y" (.int 2), .sym "v"]).Returns (.empty ⟨true⟩)
      ⟨.error ⟨.unboundSymbol, "u"⟩, ((Env.empty ⟨true⟩).bind "z" (.int 1)).bind "y" (.int 2),
        [.reduce [.define "z" (.int 1), .builtin ⟨"list", .atLeast 0, .list⟩, .sym "u",
          .define "y" (.int 2), .sym "v"], .define "z", .define "y",
          .call ⟨"list", .atLeast 0, .list⟩ 2]⟩ ∧
    Leftmost ⟨.unboundSymbol, "u"⟩
      [.lambda ["x"] (.sym "x") [], .error ⟨.unboundSymbol, "u"⟩, .nothing] ∧
    ∀ (ev : Value → Eval Value) (env : Env),
      combine ev [.lambda ["x"] (.sym "x") [], .error ⟨.unboundSymbol, "u"⟩, .nothing] env =
        some ⟨.error ⟨.unboundSymbol, "u"⟩, env, []⟩ := by
  have hl : Leftmost ⟨.unboundSymbol, "u"⟩
      [.lambda ["x"] (.sym "x") [], .error ⟨.unboundSymbol, "u"⟩, .nothing] :=
    ⟨[.lambda ["x"] (.sym "x") []], [.nothing], rfl, by simp [isError, fault?]⟩
  refine ⟨(leftmost_fault_wins.1 _ _ _ _ _).mpr ?_, hl, (leftmost_fault_wins.2 _ _ hl).2⟩
  refine ⟨_, _, _, traverses_iff_all.mpr ⟨3, rfl⟩, _, .fault ⟨[.nothing, .builtin _], _, rfl, ?_⟩, rfl⟩
  simp [isError, fault?]

end Value

end Lisplet
