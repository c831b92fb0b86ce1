import Lisplet.Proofs.Discipline

/-! Two runs of evaluation side by side. A simulation relates the environments of the two runs
and the events they tell. What evaluation does is opened here once: from related environments,
a run that ends is followed by one that ends with the same value. A property of single runs is
the case of equal environments. -/

namespace Lisplet

namespace Eval

variable {α β : Type}

theorem bind_eq_some {x : Eval α} {f : α → Eval β} {e : Env} {o : Outcome β} :
    (x >>= f) e = some o ↔ ∃ first second, x e = some first ∧
      f first.value first.env = some second ∧
      o = ⟨second.value, second.env, first.events ++ second.events⟩ := by
  change Eval.bind x f e = some o ↔ _
  unfold Eval.bind
  cases x e with
  | none => simp
  | some first =>
    cases hs : f first.value first.env with
    | none => simp [hs]
    | some second => simp [hs, eq_comm]

theorem within_eq_some {frame : Frame} {x : Eval α} {e : Env} {o : Outcome α} :
    within frame x e = some o ↔
      ∃ inner, x (e.enclose frame) = some inner ∧ o = ⟨inner.value, e, inner.events⟩ := by
  unfold within
  cases x (e.enclose frame) <;> simp [eq_comm]

theorem all_cons_eq_some {f : α → Eval β} {a : α} {rest : List α} {e : Env}
    {o : Outcome (List β)} :
    all f (a :: rest) e = some o ↔ ∃ first later, f a e = some first ∧
      all f rest first.env = some later ∧
      o = ⟨first.value :: later.value, later.env, first.events ++ later.events⟩ := by
  rw [all, bind_eq_some]
  constructor
  · rintro ⟨first, second, hf, hs, rfl⟩
    obtain ⟨later, last, hl, hp, rfl⟩ := bind_eq_some.mp hs
    cases hp
    exact ⟨first, later, hf, hl, by simp⟩
  · rintro ⟨first, later, hf, hl, rfl⟩
    refine ⟨first, _, hf, bind_eq_some.mpr ⟨later, _, hl, rfl, rfl⟩, ?_⟩
    simp

end Eval

/-- Environments of two runs that go together. -/
structure Coupling extends Discipline where
  Related : Env → Env → Prop
  lookup {e e' name} : Related e e' → Node (.sym name) →
    e'.lookup name = e.lookup name ∧ Result (e.lookup name)
  symbols {e e' b} : Related e e' → Result (.builtin b) → b.operation = .symbols →
    e'.symbols = e.symbols
  bind {e e' name v} : Related e e' → Bound v → Related (e.bind name v) (e'.bind name v)
  enclose {e e' frame} : Related e e' → (∀ b ∈ frame, Bound b.2) →
    Related (e.enclose frame) (e'.enclose frame)

/-- Events of two runs that go together with their environments. -/
structure Simulation extends Coupling where
  Told : List Event → List Event → Prop
  told_nil : Told [] []
  told_append {xs xs' ys ys'} : Told xs xs' → Told ys ys' → Told (xs ++ ys) (xs' ++ ys')
  told_event {e e'} (x : Event) : Related e e' →
    Told (if e.context.trace then [x] else []) (if e'.context.trace then [x] else [])

def Coupling.sameEvents (C : Coupling)
    (hc : ∀ {e e'}, C.Related e e' → e'.context = e.context) : Simulation where
  toCoupling := C
  Told := Eq
  told_nil := rfl
  told_append h k := by rw [h, k]
  told_event x h := by rw [hc h]

namespace Simulation

variable (S : Simulation) {α β : Type}

/-- Two outcomes with the same value, of which `Q` holds, in related environments that come from
those at the start. -/
structure Matches (Q : α → Prop) (e e' : Env) (o o' : Outcome α) : Prop where
  value : o'.value = o.value
  holds : Q o.value
  env : S.Related o.env o'.env
  events : S.Told o.events o'.events
  left : e.Grows o.env
  right : e'.Grows o'.env

/-- Wherever the first computation has an outcome, the second has one that matches it. -/
def Follows (Q : α → Prop) (x y : Eval α) : Prop :=
  ∀ ⦃e e'⦄, S.Related e e' → ∀ ⦃o⦄, x e = some o → ∃ o', y e' = some o' ∧ S.Matches Q e e' o o'

variable {S} {P : α → Prop} {Q : β → Prop}

theorem follows_pure {a : α} (h : P a) : S.Follows P (pure a) (pure a) := by
  intro e e' he o ho
  cases ho
  exact ⟨⟨a, e', []⟩, rfl, rfl, h, he, S.told_nil, .refl, .refl⟩

theorem Follows.bind {x y : Eval α} {f g : α → Eval β} (h : S.Follows P x y)
    (hf : ∀ a, P a → S.Follows Q (f a) (g a)) : S.Follows Q (x >>= f) (y >>= g) := by
  intro e e' he o ho
  obtain ⟨first, second, hx, hs, rfl⟩ := Eval.bind_eq_some.mp ho
  obtain ⟨first', hy, hm⟩ := h he hx
  obtain ⟨second', hg, hn⟩ := hf _ hm.holds hm.env hs
  -- `hg` continues from the value of the first run, and the runs have the same one.
  rw [← hm.value] at hg
  exact ⟨_, Eval.bind_eq_some.mpr ⟨first', second', hy, hg, rfl⟩,
    hn.value, hn.holds, hn.env, S.told_append hm.events hn.events, hm.left.trans hn.left,
    hm.right.trans hn.right⟩

theorem follows_tell (x : Event) : S.Follows (fun _ => True) (Eval.tell x) (Eval.tell x) := by
  intro e e' he o ho
  cases ho
  exact ⟨_, rfl, rfl, trivial, he, S.told_event x he, .refl, .refl⟩

/-- A computation that is told first. -/
theorem follows_told (x : Event) {y z : Eval α} (h : S.Follows P y z) :
    S.Follows P (Eval.tell x >>= fun _ => y) (Eval.tell x >>= fun _ => z) :=
  (follows_tell x).bind fun _ _ => h

theorem follows_assign {name : Name} {v : Value} (h : S.Bound v) :
    S.Follows (fun _ => True) (Eval.assign name v) (Eval.assign name v) := by
  intro e e' he o ho
  cases ho
  exact ⟨_, rfl, rfl, trivial, S.bind he h, S.told_nil, .bind .refl name v, .bind .refl name v⟩

theorem follows_reading {f : Env → α}
    (h : ∀ {e e'}, S.Related e e' → f e' = f e ∧ P (f e)) :
    S.Follows P (Eval.reading f) (Eval.reading f) := by
  intro e e' he o ho
  cases ho
  exact ⟨_, rfl, (h he).1, (h he).2, he, S.told_nil, .refl, .refl⟩

theorem Follows.within {x y : Eval α} {frame : Frame} (h : S.Follows P x y)
    (hf : ∀ b ∈ frame, S.Bound b.2) :
    S.Follows P (Eval.within frame x) (Eval.within frame y) := by
  intro e e' he o ho
  obtain ⟨inner, hx, rfl⟩ := Eval.within_eq_some.mp ho
  obtain ⟨inner', hy, hm⟩ := h (S.enclose he hf) hx
  exact ⟨_, Eval.within_eq_some.mpr ⟨inner', hy, rfl⟩, hm.value, hm.holds, he, hm.events, .refl,
    .refl⟩

theorem Follows.imp {x y : Eval α} {P' : α → Prop} (h : S.Follows P x y)
    (hp : ∀ a, P a → P' a) : S.Follows P' x y := by
  intro e e' he o ho
  obtain ⟨o', hy, hm⟩ := h he ho
  exact ⟨o', hy, { hm with holds := hp _ hm.holds }⟩

/-- What evaluating a node gives: a result, and the node itself if that is settled. -/
def Gives (S : Simulation) (node v : Value) : Prop := S.Result v ∧ (node.Settled → v = node)

theorem follows_all {f g : Value → Eval Value} {nodes : List Value}
    (h : ∀ n ∈ nodes, S.Follows (S.Gives n) (f n) (g n)) :
    S.Follows (fun vs => (∀ v ∈ vs, S.Result v) ∧ ((∀ n ∈ nodes, n.Settled) → vs = nodes))
      (Eval.all f nodes) (Eval.all g nodes) := by
  induction nodes with
  | nil => exact follows_pure ⟨by simp, fun _ => rfl⟩
  | cons n rest ih =>
    refine (h n List.mem_cons_self).bind fun v hv => ?_
    refine (ih fun m hm => h m (List.mem_cons_of_mem _ hm)).bind fun vs hvs => ?_
    refine follows_pure ⟨List.forall_mem_cons.mpr ⟨hv.1, hvs.1⟩, ?_⟩
    intro hs
    obtain ⟨hn, hr⟩ := List.forall_mem_cons.mp hs
    rw [hv.2 hn, hvs.2 hr]

/-- Two ways to evaluate parts, of which the second follows the first on every node. -/
def Tracks (S : Simulation) (ev ev' : Value → Eval Value) : Prop :=
  ∀ ⦃v⦄, S.Node v → S.Follows (S.Gives v) (ev v) (ev' v)

theorem Tracks.result {ev ev' : Value → Eval Value} (hev : S.Tracks ev ev') {v : Value}
    (h : S.Node v) : S.Follows S.Result (ev v) (ev' v) :=
  (hev h).imp fun _ hg => hg.1

section

variable {ev ev' : Value → Eval Value} {args : List Value}

theorem follows_fault (fault : Fault) :
    S.Follows S.Result (pure (.error fault)) (pure (.error fault)) :=
  follows_pure (S.scalar (.error fault))

theorem Tracks.run (hev : S.Tracks ev ev') {b : Builtin} (hb : S.Result (.builtin b))
    (h : ∀ a ∈ args, S.Item a) :
    S.Follows S.Result (b.operation.run ev args) (b.operation.run ev' args) := by
  generalize hop : b.operation = op
  unfold Operation.run
  split
  · exact hev.result (S.node_asCode (h _ List.mem_cons_self))
  · apply follows_reading
    intro e e' he
    rw [S.symbols he hb hop]
    refine ⟨rfl, S.quoted ?_⟩
    intro c hc
    obtain ⟨name, -, rfl⟩ := List.mem_map.mp hc
    exact S.names hb hop name
  · exact follows_pure (S.result_compute op h)

/-- Results that are not `nothing` and among which there is no fault. -/
theorem items_of_firstFault? (h : ∀ a ∈ args, S.Result a ∧ a.isNothing = false)
    (hf : Value.firstFault? args = none) : ∀ a ∈ args, S.Item a := by
  intro a ha
  obtain ⟨hr, hn⟩ := h a ha
  exact ⟨hr, Value.firstFault?_eq_none.mp hf a ha, hn⟩

theorem Tracks.call (hev : S.Tracks ev ev') {b : Builtin} (hb : S.Result (.builtin b))
    (h : ∀ a ∈ args, S.Result a ∧ a.isNothing = false) :
    S.Follows S.Result (b.calledWith ev args) (b.calledWith ev' args) := by
  apply follows_told
  unfold Builtin.call
  cases hf : Value.firstFault? args with
  | some fault => exact follows_fault fault
  | none =>
    have hi := items_of_firstFault? h hf
    by_cases hc : b.arity.accepts args.length = true
    · simpa only [if_pos hc] using hev.run hb hi
    · simpa only [if_neg hc] using follows_fault _

theorem Tracks.apply (hev : S.Tracks ev ev') {formals : List Name} {body : Value}
    {captured : Frame} (hl : S.Result (.lambda formals body captured))
    (h : ∀ a ∈ args, S.Item a) :
    S.Follows S.Result (Closure.apply ev formals body captured args)
      (Closure.apply ev' formals body captured args) := by
  unfold Closure.apply
  by_cases hm : formals.length < args.length
  · simpa only [hm, ↓reduceIte] using follows_fault _
  · simp only [hm, ↓reduceIte]
    apply follows_told
    by_cases he : args.length = formals.length
    · simp only [he, ↓reduceIte]
      exact (hev.result (S.body hl)).within (S.bound_scope hl h)
    · simp only [he, ↓reduceIte]
      exact follows_pure (S.waiting hl h (by omega))

/-- Values that are not applied are handed on together, unless one is a fault. -/
theorem follows_data {items : List Value}
    (h : ∀ v ∈ items, S.Result v ∧ v.isNothing = false) :
    S.Follows S.Result
      (match Value.firstFault? items with
        | some fault => pure (.error fault)
        | none => pure (Value.collapse items))
      (match Value.firstFault? items with
        | some fault => pure (.error fault)
        | none => pure (Value.collapse items)) := by
  cases hf : Value.firstFault? items with
  | some fault => exact follows_fault fault
  | none => exact follows_pure (S.collapse (items_of_firstFault? h hf))

theorem Tracks.combine (hev : S.Tracks ev ev') {values : List Value}
    (h : ∀ v ∈ values, S.Result v) :
    S.Follows S.Result (Value.combine ev values) (Value.combine ev' values) := by
  unfold Value.combine
  have hk : ∀ v ∈ values.filter (!·.isNothing), S.Result v ∧ v.isNothing = false := by
    intro v hv
    obtain ⟨hm, hn⟩ := List.mem_filter.mp hv
    exact ⟨h v hm, by simpa using hn⟩
  generalize values.filter (!·.isNothing) = kept at hk
  cases kept with
  | nil => exact follows_pure (S.scalar .nothing)
  | cons head args =>
    obtain ⟨⟨hh, -⟩, ha⟩ := List.forall_mem_cons.mp hk
    cases head with
    | lambda formals body captured =>
      dsimp only
      cases hf : Value.firstFault? args with
      | some fault => exact follows_fault fault
      | none => exact hev.apply hh (items_of_firstFault? ha hf)
    | builtin b => exact hev.call hh ha
    -- No other head can be applied.
    | _ => exact follows_data hk

theorem Tracks.reduce (hev : S.Tracks ev ev') {cells : List Value}
    (h : ∀ c ∈ cells, S.Node c) :
    S.Follows S.Result (Value.reduce ev cells) (Value.reduce ev' cells) := by
  match cells, h with
  | [], _ => exact follows_pure S.result_empty
  | [cell], h =>
    refine (hev.result (h cell List.mem_cons_self)).bind fun v hv => ?_
    cases v with
    | builtin b =>
      by_cases hb : b.takesNoArguments = true
      · simpa only [if_pos hb] using hev.call hv (by simp)
      · simpa only [if_neg hb] using follows_pure hv
    | _ => exact follows_pure hv
  | _ :: _ :: _, h =>
    exact (follows_all fun c hc => hev (h c hc)).bind fun values hv => hev.combine hv.1

theorem Tracks.connect (hev : S.Tracks ev ev') (op : Connective) {operands : List Value}
    (h : ∀ v ∈ operands, S.Node v) :
    S.Follows S.Result (Value.connect ev op operands) (Value.connect ev' op operands) := by
  induction operands with
  | nil => exact follows_pure (S.scalar (.bool _))
  | cons operand rest ih =>
    refine (hev.result (h operand List.mem_cons_self)).bind fun v hv => ?_
    cases v with
    | bool b =>
      by_cases hb : b = op.deciding
      · simpa only [hb, ↓reduceIte] using follows_pure (S.scalar (.bool _))
      · simpa only [hb, ↓reduceIte] using ih fun v hv => h v (List.mem_cons_of_mem _ hv)
    | error fault => exact follows_fault fault
    | _ => exact follows_fault _

theorem Tracks.choose (hev : S.Tracks ev ev') {clause yes no : Value} (hc : S.Node clause)
    (hy : S.Node yes) (hn : S.Node no) :
    S.Follows S.Result (Value.choose ev clause yes no) (Value.choose ev' clause yes no) := by
  refine (hev.result hc).bind fun v hv => ?_
  cases v with
  | bool b =>
    cases b with
    | true => exact hev.result hy
    | false => exact hev.result hn
  | error fault => exact follows_fault fault
  | _ => exact follows_fault _

theorem follows_settle (name : Name) {v : Value} (h : S.Result v) :
    S.Follows S.Result (Value.settle name v) (Value.settle name v) := by
  cases v with
  | error fault => exact follows_fault fault
  | _ => exact (follows_assign (S.bound h rfl)).bind fun _ _ => follows_pure (S.scalar .nothing)

theorem Follows.unsettled {x y : Eval Value} {v : Value} (h : S.Follows S.Result x y)
    (hv : v.isForm) : S.Follows (S.Gives v) x y :=
  h.imp fun _ hr => ⟨hr, fun hs => (Value.not_settled_of_isForm hv hs).elim⟩

theorem Tracks.seq (hev : S.Tracks ev ev') {nodes : List Value} (h : S.Node (.seq nodes)) :
    S.Follows (S.Gives (.seq nodes)) (Value.step ev (.seq nodes))
      (Value.step ev' (.seq nodes)) := by
  refine (follows_all fun c hc => hev (S.cells h rfl c hc)).bind fun values hv => ?_
  have hs : (Value.seq nodes).Settled → Value.collapse values = .seq nodes := by
    intro hs
    obtain ⟨two, each⟩ := hs.of_seq
    rw [hv.2 each, Value.collapse_of_two_le two]
  exact follows_pure ⟨S.sequence h hv.1 hs, hs⟩

/-- One step: if parts are tracked, so is the whole. -/
theorem Tracks.step (hev : S.Tracks ev ev') : S.Tracks (Value.step ev) (Value.step ev') := by
  intro v hv
  cases v with
  | seq nodes => exact hev.seq hv
  | sym name => exact (follows_reading fun he => S.lookup he hv).unsettled rfl
  | define name value =>
    have hd := (hev.result (S.defined hv)).bind fun v h => follows_settle name h
    exact (follows_told _ hd).unsettled rfl
  | cond clause yes no =>
    obtain ⟨hc, hy, hn⟩ := S.branches hv
    exact (follows_told _ (hev.choose hc hy hn)).unsettled rfl
  | logic op operands => exact (follows_told _ (hev.connect op (S.operands hv))).unsettled rfl
  | expr mode cells =>
    cases mode with
    | plain =>
      cases cells with
      | nil => exact follows_told _ (follows_pure ⟨S.result_empty, fun _ => rfl⟩)
      | cons c rest => exact (follows_told _ (hev.reduce (S.cells hv rfl))).unsettled rfl
    | quoted => exact follows_pure ⟨S.literal rfl hv, fun _ => rfl⟩
    | quasi => exact follows_pure ⟨S.literal rfl hv, fun _ => rfl⟩
  | _ => exact follows_pure ⟨S.literal rfl hv, fun _ => rfl⟩

end

/-- Every run is followed by each run with at least its depth. -/
theorem tracks_evaluate (S : Simulation) {depth depth' : Nat} (h : depth ≤ depth') :
    S.Tracks (Value.evaluate depth) (Value.evaluate depth') := by
  induction depth generalizing depth' with
  | zero =>
    -- Without depth the first run has no outcome to follow.
    intro v hv e e' he o ho
    cases ho
  | succ depth ih =>
    obtain ⟨n, rfl⟩ : ∃ n, depth' = n + 1 := ⟨depth' - 1, by omega⟩
    exact (ih (by omega)).step

end Simulation

end Lisplet
