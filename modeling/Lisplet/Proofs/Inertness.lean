import Mathlib.Tactic.Common
import Lisplet.Proofs.Fresh

/-! Only definitions written in the evaluated form can change a frame. A definition inside the body of
a closure takes effect in the frame of the call, which is dropped, and the one way to run data in the
frame of a caller is `eval`. So it is enough that no definition stands outside bodies, and that none
stands in data that a body can return. -/

namespace Lisplet

namespace Value

mutual

/-- Definitions stand in bodies of closures only and, even there, in no quoted list. `inBody` tells
whether the value itself is part of a body; what a frame binds never is. -/
def restrained (inBody : Bool) : Value → Bool
  | .expr .plain cells => restrainedAll inBody cells
  | .expr _ cells => restrainedAll false cells
  | .lambda _ body captured => body.restrained true && restrainedBindings captured
  | .define _ value => inBody && value.restrained inBody
  | .cond clause yes no =>
    clause.restrained inBody && yes.restrained inBody && no.restrained inBody
  | .logic _ operands => restrainedAll inBody operands
  | .seq items => restrainedAll inBody items
  | _ => true

def restrainedAll (inBody : Bool) : List Value → Bool
  | [] => true
  | v :: rest => v.restrained inBody && restrainedAll inBody rest

def restrainedBindings : List (Name × Value) → Bool
  | [] => true
  | (_, v) :: rest => v.restrained false && restrainedBindings rest

end

/-- No definition stands in the value, except in bodies of closures and there in no quoted list. -/
def Inert (v : Value) : Prop := v.restrained false = true

instance : DecidablePred Inert := fun v => inferInstanceAs (Decidable (v.restrained false = true))

variable {inBody : Bool}

theorem restrainedAll_iff {vs : List Value} :
    restrainedAll inBody vs = true ↔ ∀ v ∈ vs, v.restrained inBody = true := by
  induction vs with
  | nil => simp [restrainedAll]
  | cons v rest ih => rw [restrainedAll, Bool.and_eq_true, ih, List.forall_mem_cons]

theorem restrainedBindings_iff {bs : Frame} :
    restrainedBindings bs = true ↔ ∀ b ∈ bs, b.2.Inert := by
  induction bs with
  | nil => simp [restrainedBindings]
  | cons b rest ih => rw [restrainedBindings, Bool.and_eq_true, ih, List.forall_mem_cons, Inert]

theorem inert_expr {mode : Quoting} {cells : List Value} :
    (expr mode cells).Inert ↔ ∀ c ∈ cells, c.Inert := by
  cases mode <;> exact restrainedAll_iff

theorem inert_seq {items : List Value} : (seq items).Inert ↔ ∀ v ∈ items, v.Inert :=
  restrainedAll_iff

theorem inert_lambda {formals : List Name} {body : Value} {captured : Frame} :
    (lambda formals body captured).Inert ↔
      body.restrained true = true ∧ ∀ b ∈ captured, b.2.Inert := by
  rw [Inert, restrained, Bool.and_eq_true, restrainedBindings_iff]

theorem Scalar.inert {v : Value} (h : v.Scalar) : v.Inert := by
  cases h <;> rfl

theorem inert_of_isLiteral {v : Value} (hl : v.isLiteral) (h : v.restrained inBody = true) :
    v.Inert := by
  cases v with
  | expr mode cells =>
    cases mode with
    | plain => cases hl
    | quoted => exact h
    | quasi => exact h
  | lambda formals body captured => exact h
  | sym _ | define _ _ | cond _ _ _ | logic _ _ | seq _ => cases hl
  | _ => rfl

theorem Inert.cells {v : Value} {cells : List Value} (h : v.Inert) (hc : v.cells? = some cells) :
    ∀ c ∈ cells, c.Inert := by
  cases v with
  | expr mode inner => cases hc; exact inert_expr.mp h
  | seq inner => cases hc; exact inert_seq.mp h
  | _ => cases hc

theorem inert_collapse {vs : List Value} (h : ∀ v ∈ vs, v.Inert) : (collapse vs).Inert := by
  match vs, h with
  | [], h => exact inert_expr.mpr h
  | [v], h => exact h v List.mem_cons_self
  | _ :: _ :: _, h => exact inert_seq.mpr h

theorem inert_compute (op : Operation) {args : List Value} (h : ∀ a ∈ args, a.Inert) :
    (op.compute args).Inert := by
  rcases op.compute_cases args with hs | ⟨cells, hc, hm⟩
  · exact hs.inert
  · rw [hc]
    apply inert_expr.mpr
    intro c hc
    rcases hm c hc with ha | ⟨a, ha, inner, hi, hc⟩
    · exact h c ha
    · exact (h a ha).cells hi c hc

theorem inert_scope {formals : List Name} {captured : Frame} {args : List Value}
    (hc : ∀ b ∈ captured, b.2.Inert) (ha : ∀ a ∈ args, a.Inert) :
    ∀ b ∈ Closure.scope formals captured args, b.2.Inert := by
  intro b hb
  rcases Frame.mem_bindAll hb with hb | hb
  · exact ha _ (List.of_mem_zip hb).2
  · exact hc b hb

end Value

/-- Every frame binds inert values only. -/
def Env.Inert (env : Env) : Prop := env.Binds fun _ v => v.Inert

namespace Eval

open Value

variable {α β : Type} {inBody : Bool} {P : α → Prop} {Q : β → Prop}

/-- Among inert bindings the computation ends with a value that has the property, and leaves inert
bindings; outside bodies it leaves the very environment in which it started. -/
def Keeps (inBody : Bool) (P : α → Prop) (x : Eval α) : Prop :=
  ∀ ⦃e : Env⦄ ⦃o : Outcome α⦄, e.Inert → x e = some o →
    P o.value ∧ o.env.Inert ∧ (inBody = false → o.env = e)

theorem keeps_pure {a : α} (h : P a) : Keeps inBody P (pure a) := by
  intro e o he ho
  cases ho
  exact ⟨h, he, fun _ => rfl⟩

theorem Keeps.bind {x : Eval α} {f : α → Eval β} (hx : Keeps inBody P x)
    (hf : ∀ a, P a → Keeps inBody Q (f a)) : Keeps inBody Q (x >>= f) := by
  intro e o he ho
  obtain ⟨first, second, h₁, h₂, rfl⟩ := bind_eq_some.mp ho
  obtain ⟨hp, hmid, hsame⟩ := hx he h₁
  obtain ⟨hq, hlast, hstill⟩ := hf _ hp hmid h₂
  exact ⟨hq, hlast, fun hb => (hstill hb).trans (hsame hb)⟩

theorem Keeps.told {x : Eval α} (e : Event) (hx : Keeps inBody P x) :
    Keeps inBody P (tell e >>= fun _ => x) := by
  have ht : Keeps inBody (fun _ => True) (tell e) := by
    intro env o he ho
    cases ho
    exact ⟨trivial, he, fun _ => rfl⟩
  exact ht.bind fun _ _ => hx

/-- What leaves the environment as it is may also stand in a body. -/
theorem Keeps.anywhere {x : Eval α} (hx : Keeps false P x) : Keeps inBody P x := by
  intro e o he ho
  obtain ⟨hp, hlast, hsame⟩ := hx he ho
  exact ⟨hp, hlast, fun _ => hsame rfl⟩

theorem keeps_reading {f : Env → α} (h : ∀ e : Env, e.Inert → P (f e)) :
    Keeps inBody P (reading f) := by
  intro e o he ho
  cases ho
  exact ⟨h e he, he, fun _ => rfl⟩

theorem keeps_assign {name : Name} {v : Value} (h : v.Inert) :
    Keeps true (fun _ => True) (assign name v) := by
  intro e o he ho
  cases ho
  exact ⟨trivial, he.bind h, nofun⟩

/-- A body may define names: its frame is dropped. -/
theorem Keeps.within {x : Eval α} {frame : Frame} (hx : Keeps true P x)
    (hf : ∀ b ∈ frame, b.2.Inert) : Keeps inBody P (within frame x) := by
  intro e o he ho
  obtain ⟨inner, hi, rfl⟩ := within_eq_some.mp ho
  exact ⟨(hx (he.enclose hf) hi).1, he, fun _ => rfl⟩

theorem keeps_all {f : Value → Eval Value} {nodes : List Value}
    (h : ∀ n ∈ nodes, Keeps inBody Inert (f n)) :
    Keeps inBody (fun vs => ∀ v ∈ vs, v.Inert) (all f nodes) := by
  induction nodes with
  | nil => exact keeps_pure (by simp)
  | cons n rest ih =>
    refine (h n List.mem_cons_self).bind fun v hv => ?_
    refine (ih fun m hm => h m (List.mem_cons_of_mem _ hm)).bind fun vs hvs => ?_
    exact keeps_pure (List.forall_mem_cons.mpr ⟨hv, hvs⟩)

theorem keeps_fault (fault : Fault) : Keeps inBody Inert (pure (.error fault)) := keeps_pure rfl

/-- How parts are evaluated keeps what it should, in bodies and outside. -/
def Restrains (ev : Value → Eval Value) : Prop :=
  ∀ inBody v, v.restrained inBody = true → Keeps inBody Inert (ev v)

namespace Restrains

variable {ev : Value → Eval Value} (hev : Restrains ev) {args : List Value}

include hev

theorem run (op : Operation) (h : ∀ a ∈ args, a.Inert) : Keeps inBody Inert (op.run ev args) := by
  unfold Operation.run
  split
  · next v =>
    have hv : v.Inert := h v List.mem_cons_self
    have hc : (Operation.asCode v).Inert := by
      cases v with
      | expr mode cells => exact inert_expr.mpr (inert_expr.mp hv)
      | _ => exact hv
    exact (hev false _ hc).anywhere
  · apply keeps_reading
    intro e _
    apply inert_expr.mpr
    intro c hc
    obtain ⟨name, -, rfl⟩ := List.mem_map.mp hc
    rfl
  · exact keeps_pure (inert_compute op h)

theorem call (b : Builtin) (h : ∀ a ∈ args, a.Inert) :
    Keeps inBody Inert (b.calledWith ev args) := by
  apply Keeps.told
  unfold Builtin.call
  split
  · exact keeps_fault _
  · split
    · exact hev.run b.operation h
    · exact keeps_fault _

theorem apply {formals : List Name} {body : Value} {captured : Frame}
    (hl : (Value.lambda formals body captured).Inert) (h : ∀ a ∈ args, a.Inert) :
    Keeps inBody Inert (Closure.apply ev formals body captured args) := by
  obtain ⟨hbody, hcaptured⟩ := inert_lambda.mp hl
  have hscope := @inert_scope formals _ _ hcaptured h
  unfold Closure.apply
  split
  · exact keeps_fault _
  · apply Keeps.told
    split
    · exact (hev true body hbody).within hscope
    · exact keeps_pure (inert_lambda.mpr ⟨hbody, hscope⟩)

theorem combine {values : List Value} (h : ∀ v ∈ values, v.Inert) :
    Keeps inBody Inert (Value.combine ev values) := by
  unfold Value.combine
  have hk : ∀ v ∈ values.filter (!·.isNothing), v.Inert := fun v hv => h v (List.mem_filter.mp hv).1
  generalize values.filter (!·.isNothing) = kept at hk
  split
  · exact keeps_pure rfl
  · obtain ⟨hh, ha⟩ := List.forall_mem_cons.mp hk
    split
    · exact keeps_fault _
    · exact hev.apply hh ha
  · exact hev.call _ (List.forall_mem_cons.mp hk).2
  · split
    · exact keeps_fault _
    · exact keeps_pure (inert_collapse hk)

theorem reduce {cells : List Value} (h : ∀ c ∈ cells, c.restrained inBody = true) :
    Keeps inBody Inert (Value.reduce ev cells) := by
  match cells, h with
  | [], _ => exact keeps_pure rfl
  | [cell], h =>
    refine (hev inBody cell (h cell List.mem_cons_self)).bind fun v hv => ?_
    split
    · split
      · exact hev.call _ (by simp)
      · exact keeps_pure hv
    · exact keeps_pure hv
  | _ :: _ :: _, h =>
    exact (keeps_all fun c hc => hev inBody c (h c hc)).bind fun values hv => hev.combine hv

theorem connect (op : Connective) {operands : List Value}
    (h : ∀ v ∈ operands, v.restrained inBody = true) :
    Keeps inBody Inert (Value.connect ev op operands) := by
  induction operands with
  | nil => exact keeps_pure rfl
  | cons operand rest ih =>
    refine (hev inBody operand (h operand List.mem_cons_self)).bind fun v hv => ?_
    split
    · split
      · exact keeps_pure hv
      · exact ih fun v hv => h v (List.mem_cons_of_mem _ hv)
    · exact keeps_fault _
    · exact keeps_fault _

theorem choose {clause yes no : Value} (hc : clause.restrained inBody = true)
    (hy : yes.restrained inBody = true) (hn : no.restrained inBody = true) :
    Keeps inBody Inert (Value.choose ev clause yes no) := by
  refine (hev inBody clause hc).bind fun v hv => ?_
  split
  · exact hev inBody yes hy
  · exact hev inBody no hn
  · exact keeps_fault _
  · exact keeps_fault _

/-- A definition is evaluated in bodies only. -/
theorem define (name : Name) {value : Value} (h : value.restrained true = true) :
    Keeps true Inert (ev value >>= Value.settle name) := by
  refine (hev true value h).bind fun v hv => ?_
  unfold Value.settle
  split
  · exact keeps_fault _
  · exact (keeps_assign hv).bind fun _ _ => keeps_pure rfl

/-- One step: if parts are restrained, so is the whole. -/
theorem step : Restrains (Value.step ev) := by
  intro inBody v h
  cases v with
  | seq nodes =>
    have hn := restrainedAll_iff.mp h
    exact (keeps_all fun n hm => hev inBody n (hn n hm)).bind fun vs hvs =>
      keeps_pure (inert_collapse hvs)
  | sym name =>
    apply keeps_reading
    intro e he
    rcases he.lookup name with hv | ⟨fault, hf⟩
    · exact hv
    · rw [hf]
      rfl
  | define name value =>
    obtain ⟨rfl, hv⟩ := Bool.and_eq_true_iff.mp h
    exact (hev.define name hv).told _
  | cond clause yes no =>
    obtain ⟨hcy, hn⟩ := Bool.and_eq_true_iff.mp h
    obtain ⟨hc, hy⟩ := Bool.and_eq_true_iff.mp hcy
    exact (hev.choose hc hy hn).told _
  | logic op operands => exact (hev.connect op (restrainedAll_iff.mp h)).told _
  | expr mode cells =>
    cases mode with
    | plain => exact (hev.reduce (restrainedAll_iff.mp h)).told _
    | quoted => exact keeps_pure (inert_of_isLiteral rfl h)
    | quasi => exact keeps_pure (inert_of_isLiteral rfl h)
  | _ => exact keeps_pure (inert_of_isLiteral rfl h)

end Restrains

end Eval

theorem Value.restrains_evaluate (depth : Nat) : Eval.Restrains (evaluate depth) := by
  induction depth with
  | zero =>
    intro inBody v _ e o _ ho
    cases ho
  | succ depth ih => exact ih.step

/-- Nothing that a fresh session binds has a definition outside bodies; the body of `sort` has two. -/
theorem Session.start_inert (context : Context) : (start context).1.Inert := by
  have hg : ∀ b ∈ Prelude.globals, b.2.Inert := by decide +kernel
  rw [start_frame]
  intro f hf b hb
  obtain rfl := List.mem_singleton.mp hf
  rcases Frame.mem_bindAll hb with hb | hb
  · exact hg b hb
  · cases hb

namespace Value

/-- The bindings of a fresh session are inert. Among inert bindings an inert node leaves the
environment as it was, its value is inert, and evaluated again it gives this value again. -/
theorem inert_leaves_environment :
    (∀ context, (Session.start context).1.Inert) ∧
    ∀ (node : Value) (env : Env) (o : Outcome Value), node.Inert → env.Inert → node.Returns env o →
      o.env = env ∧ o.value.Inert ∧ ∀ o', node.Returns o.env o' ↔ o' = o := by
  refine ⟨Session.start_inert, ?_⟩
  intro node env o hn he ho
  obtain ⟨depth, hd⟩ := ho
  obtain ⟨hv, -, hsame⟩ := restrains_evaluate depth false node hn he hd
  have henv := hsame rfl
  refine ⟨henv, hv, ?_⟩
  intro o'
  rw [henv]
  constructor
  · intro h'
    exact h'.unique ⟨depth, hd⟩
  · rintro rfl
    exact ⟨depth, hd⟩

/-- The body of the closure defines the name that is bound outside. -/
theorem inert_leaves_environment_local :
    ∃ (node : Value) (env : Env) (o : Outcome Value), node.Inert ∧ env.Inert ∧ node.Returns env o ∧
      env.lookup "y" = .int 3 ∧ o.value = .int 7 ∧
      (o.env = env ∧ o.value.Inert ∧ ∀ o', node.Returns o.env o' ↔ o' = o) := by
  let body : Value := .expr .plain [.define "y" (.sym "x"), .sym "y"]
  let node : Value := .expr .plain [.lambda ["x"] body [], .int 7]
  let env : Env := ⟨[("y", .int 3)], [], .default⟩
  let inner : Env := env.enclose (Closure.scope ["x"] [] [.int 7])
  have hn : node.Inert := rfl
  have he : env.Inert := by
    simp [env, Env.Inert, Env.Binds, Env.frames, (Scalar.int 3).inert]
  have hx : inner.lookup "x" = .int 7 := rfl
  have hy : (inner.bind "y" (.int 7)).lookup "y" = .int 7 := by rw [Env.lookup_bind, if_pos rfl]
  have hbody : body.Yields inner (.int 7) (inner.bind "y" (.int 7)) := by
    refine (yields_list (by simp)).mpr ⟨[.nothing, .int 7], _, ?_, ⟨0, [], rfl⟩⟩
    exact .next (yields_define (yields_name hx) rfl) (.next (yields_name hy) (.nil _))
  obtain ⟨depth, events, ho⟩ : node.Yields env (.int 7) env := by
    refine (yields_list (by simp)).mpr ⟨[.lambda ["x"] body [], .int 7], env, ?_, ?_⟩
    · exact .next (yields_literal rfl) (.next (yields_literal rfl) (.nil _))
    · exact combines_body (by simp [Proper, isError, isNothing, fault?]) rfl hbody
  have hr : node.Returns env ⟨.int 7, env, events⟩ := ⟨depth, ho⟩
  exact ⟨node, env, _, hn, he, hr, rfl, rfl, inert_leaves_environment.2 node env _ hn he hr⟩

end Value

end Lisplet
