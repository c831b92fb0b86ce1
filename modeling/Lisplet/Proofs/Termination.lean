import Lisplet.Proofs.Sessions

/-! Code without closures. Evaluation enters a value that is no part of what it evaluates only by
applying a closure or by calling `eval`. Where neither occurs, in the code or in what is bound, it goes
down the code and nowhere else: it ends, no deeper than the code is nested, and neither occurs in what
it leaves behind. -/

namespace Lisplet

namespace Value

/-- Neither a closure nor the builtin that turns data back into code. -/
def Passive : Value → Prop
  | .lambda _ _ _ => False
  | .builtin b => b.operation ≠ .eval
  | _ => True

instance : DecidablePred Passive
  | .lambda _ _ _ => .isFalse id
  | .builtin b => inferInstanceAs (Decidable (b.operation ≠ .eval))
  | .int _ | .float _ | .bool _ | .str _ | .sym _ | .expr _ _ | .define _ _ | .cond _ _ _
  | .logic _ _ | .seq _ | .error _ | .nothing => .isTrue trivial

/-- No closure occurs in the value at any depth, and the builtin `eval` does not either. -/
def FirstOrder (v : Value) : Prop := v.Everywhere Passive

instance : DecidablePred FirstOrder := fun v => inferInstanceAs (Decidable (v.Everywhere Passive))

mutual

/-- How deep the value is nested; what has no parts is one deep. -/
def nesting : Value → Nat
  | .expr _ cells => nestingOfAll cells + 1
  | .lambda _ body captured => max body.nesting (nestingOfBindings captured) + 1
  | .define _ value => value.nesting + 1
  | .cond clause yes no => max clause.nesting (max yes.nesting no.nesting) + 1
  | .logic _ operands => nestingOfAll operands + 1
  | .seq items => nestingOfAll items + 1
  | _ => 1

def nestingOfAll : List Value → Nat
  | [] => 0
  | v :: rest => max v.nesting (nestingOfAll rest)

def nestingOfBindings : List (Name × Value) → Nat
  | [] => 0
  | (_, v) :: rest => max v.nesting (nestingOfBindings rest)

end

theorem nestingOfAll_le {vs : List Value} {depth : Nat} :
    nestingOfAll vs ≤ depth ↔ ∀ v ∈ vs, v.nesting ≤ depth := by
  induction vs with
  | nil => simp [nestingOfAll]
  | cons v rest ih => rw [nestingOfAll, Nat.max_le, ih, List.forall_mem_cons]

theorem nesting_pos (v : Value) : 1 ≤ v.nesting := by
  cases v <;> simp [nesting]

theorem pervasive_passive : Pervasive Passive fun _ => True where
  list _ _ := trivial
  seq _ := trivial
  scalar hs := by
    cases hs <;> exact ⟨trivial, trivial⟩
  literal _ _ := trivial
  collapse _ := trivial
  captured hp := hp.elim
  waiting hp := hp.elim
  names _ _ _ := trivial

theorem FirstOrder.compute (op : Operation) {args : List Value}
    (h : ∀ a ∈ args, a.FirstOrder ∧ a.Proper) : (op.compute args).FirstOrder := by
  have hitems : ∀ a ∈ args, pervasive_passive.discipline.Item a := by
    intro a ha
    exact ⟨⟨trivial, (h a ha).1⟩, (h a ha).2⟩
  exact (pervasive_passive.discipline.result_compute op hitems).2

end Value

/-- Every frame binds first-order values only. -/
def Env.FirstOrder (env : Env) : Prop := env.Binds fun _ v => v.FirstOrder

namespace Eval

open Value

variable {α β : Type} {P : α → Prop} {Q : β → Prop}

/-- Among first-order bindings the computation has an outcome. Its value has the property, and the
bindings are still first-order. -/
def Completes (P : α → Prop) (x : Eval α) : Prop :=
  ∀ ⦃e : Env⦄, e.FirstOrder → ∃ o, x e = some o ∧ P o.value ∧ o.env.FirstOrder

theorem completes_pure {a : α} (h : P a) : Completes P (pure a) := by
  intro e he
  exact ⟨_, rfl, h, he⟩

theorem Completes.bind {x : Eval α} {f : α → Eval β} (hx : Completes P x)
    (hf : ∀ a, P a → Completes Q (f a)) : Completes Q (x >>= f) := by
  intro e he
  obtain ⟨first, h₁, hp, hmid⟩ := hx he
  obtain ⟨second, h₂, hq, hlast⟩ := hf _ hp hmid
  exact ⟨_, bind_eq_some.mpr ⟨first, second, h₁, h₂, rfl⟩, hq, hlast⟩

theorem Completes.told {x : Eval α} (hx : Completes P x) (e : Event) :
    Completes P (tell e >>= fun _ => x) := by
  have ht : Completes (fun _ => True) (tell e) := by
    intro env he
    exact ⟨_, rfl, trivial, he⟩
  exact ht.bind fun _ _ => hx

theorem completes_reading {f : Env → α} (h : ∀ e : Env, e.FirstOrder → P (f e)) :
    Completes P (reading f) := by
  intro e he
  exact ⟨_, rfl, h e he, he⟩

theorem completes_assign {name : Name} {v : Value} (h : v.FirstOrder) :
    Completes (fun _ => True) (assign name v) := by
  intro e he
  exact ⟨_, rfl, trivial, he.bind h⟩

theorem completes_all {f : Value → Eval Value} {nodes : List Value}
    (h : ∀ n ∈ nodes, Completes FirstOrder (f n)) :
    Completes (fun vs => ∀ v ∈ vs, v.FirstOrder) (all f nodes) := by
  induction nodes with
  | nil => exact completes_pure (by simp)
  | cons n rest ih =>
    refine (h n List.mem_cons_self).bind fun v hv => ?_
    refine (ih fun m hm => h m (List.mem_cons_of_mem _ hm)).bind fun vs hvs => ?_
    exact completes_pure (List.forall_mem_cons.mpr ⟨hv, hvs⟩)

theorem completes_scalar {v : Value} (h : v.Scalar) : Completes FirstOrder (pure v) :=
  completes_pure (pervasive_passive.everywhere_scalar h)

theorem completes_fault (fault : Fault) : Completes FirstOrder (pure (.error fault)) :=
  completes_scalar (.error fault)

section

-- How parts are evaluated does not matter for what is done with their values.
variable {ev : Value → Eval Value} {args : List Value}

theorem completes_run {op : Operation} (hop : op ≠ .eval)
    (h : ∀ a ∈ args, a.FirstOrder ∧ a.Proper) : Completes FirstOrder (op.run ev args) := by
  unfold Operation.run
  split
  · exact (hop rfl).elim
  · apply completes_reading
    intro e _
    refine everywhere_expr.mpr ⟨trivial, ?_⟩
    intro c hc
    obtain ⟨name, -, rfl⟩ := List.mem_map.mp hc
    exact (everywhere_leaf rfl).mpr trivial
  · exact completes_pure (.compute op h)

theorem completes_call {b : Builtin} (hb : (Value.builtin b).FirstOrder)
    (h : ∀ a ∈ args, a.FirstOrder ∧ a.isNothing = false) :
    Completes FirstOrder (b.calledWith ev args) := by
  apply Completes.told
  unfold Builtin.call
  cases hf : firstFault? args with
  | some fault => exact completes_fault fault
  | none =>
    by_cases hc : b.arity.accepts args.length = true
    · simp only [hc, ↓reduceIte]
      apply completes_run hb.here
      intro a ha
      exact ⟨(h a ha).1, firstFault?_eq_none.mp hf a ha, (h a ha).2⟩
    · simp only [hc]
      exact completes_fault _

theorem completes_combine {values : List Value} (h : ∀ v ∈ values, v.FirstOrder) :
    Completes FirstOrder (Value.combine ev values) := by
  unfold Value.combine
  have hk : ∀ v ∈ values.filter (!·.isNothing), v.FirstOrder ∧ v.isNothing = false := by
    intro v hv
    obtain ⟨hm, hn⟩ := List.mem_filter.mp hv
    exact ⟨h v hm, by simpa using hn⟩
  generalize values.filter (!·.isNothing) = kept at hk
  split
  · exact completes_scalar .nothing
  · exact ((List.forall_mem_cons.mp hk).1.1.here).elim
  · obtain ⟨⟨hb, -⟩, ha⟩ := List.forall_mem_cons.mp hk
    exact completes_call hb ha
  · split
    · exact completes_fault _
    · exact completes_pure (pervasive_passive.everywhere_collapse fun v hv => (hk v hv).1)

end

/-- Every first-order node within the depth is evaluated to an end. -/
def Terminates (depth : Nat) (ev : Value → Eval Value) : Prop :=
  ∀ v, v.FirstOrder → v.nesting ≤ depth → Completes FirstOrder (ev v)

namespace Terminates

variable {depth : Nat} {ev : Value → Eval Value} (hev : Terminates depth ev)

include hev

theorem nodes {vs : List Value} (h : ∀ v ∈ vs, v.FirstOrder) (hd : nestingOfAll vs ≤ depth) :
    ∀ v ∈ vs, Completes FirstOrder (ev v) := by
  intro v hv
  exact hev v (h v hv) (nestingOfAll_le.mp hd v hv)

theorem reduce {cells : List Value} (h : ∀ c ∈ cells, c.FirstOrder)
    (hd : nestingOfAll cells ≤ depth) : Completes FirstOrder (Value.reduce ev cells) := by
  have hcells := hev.nodes h hd
  match cells, h, hcells with
  | [], h, _ => exact completes_pure (everywhere_expr.mpr ⟨trivial, h⟩)
  | [cell], _, hcells =>
    refine (hcells cell List.mem_cons_self).bind fun v hv => ?_
    split
    · next b =>
      by_cases hb : b.takesNoArguments = true
      · simp only [hb, ↓reduceIte]
        exact completes_call hv (by simp)
      · simp only [hb]
        exact completes_pure hv
    · exact completes_pure hv
  | _ :: _ :: _, _, hcells =>
    exact (completes_all hcells).bind fun values hv => completes_combine hv

theorem connect (op : Connective) {operands : List Value} (h : ∀ v ∈ operands, v.FirstOrder)
    (hd : nestingOfAll operands ≤ depth) : Completes FirstOrder (Value.connect ev op operands) := by
  have hoperands := hev.nodes h hd
  clear h hd
  induction operands with
  | nil => exact completes_scalar (.bool _)
  | cons operand rest ih =>
    obtain ⟨hfirst, hrest⟩ := List.forall_mem_cons.mp hoperands
    refine hfirst.bind fun v hv => ?_
    split
    · next b =>
      by_cases hb : b = op.deciding
      · simp only [hb, ↓reduceIte]
        exact completes_scalar (.bool _)
      · simp only [hb, ↓reduceIte]
        exact ih hrest
    · exact completes_fault _
    · exact completes_fault _

theorem choose {clause yes no : Value}
    (hc : clause.FirstOrder ∧ clause.nesting ≤ depth) (hy : yes.FirstOrder ∧ yes.nesting ≤ depth)
    (hn : no.FirstOrder ∧ no.nesting ≤ depth) :
    Completes FirstOrder (Value.choose ev clause yes no) := by
  refine (hev clause hc.1 hc.2).bind fun v hv => ?_
  split
  · exact hev yes hy.1 hy.2
  · exact hev no hn.1 hn.2
  · exact completes_fault _
  · exact completes_fault _

theorem define (name : Name) {value : Value} (h : value.FirstOrder) (hd : value.nesting ≤ depth) :
    Completes FirstOrder (ev value >>= Value.settle name) := by
  refine (hev value h hd).bind fun v hv => ?_
  unfold Value.settle
  split
  · exact completes_fault _
  · exact (completes_assign hv).bind fun _ _ => completes_scalar .nothing

/-- One step goes to parts of the node only, which are less deep. -/
theorem step : Terminates (depth + 1) (Value.step ev) := by
  intro v h hd
  cases v with
  | seq nodes =>
    have hd : nestingOfAll nodes ≤ depth := Nat.le_of_succ_le_succ hd
    refine (completes_all (hev.nodes (everywhere_seq.mp h).2 hd)).bind fun vs hvs => ?_
    exact completes_pure (pervasive_passive.everywhere_collapse hvs)
  | sym name =>
    apply completes_reading
    intro e he
    rcases he.lookup name with hv | ⟨fault, hf⟩
    · exact hv
    · rw [hf]
      exact pervasive_passive.everywhere_scalar (.error fault)
  | define name value =>
    exact (hev.define name (everywhere_define.mp h).2 (Nat.le_of_succ_le_succ hd)).told _
  | cond clause yes no =>
    obtain ⟨-, hc, hy, hn⟩ := everywhere_cond.mp h
    have hd := Nat.le_of_succ_le_succ hd
    rw [Nat.max_le, Nat.max_le] at hd
    exact (hev.choose ⟨hc, hd.1⟩ ⟨hy, hd.2.1⟩ ⟨hn, hd.2.2⟩).told _
  | logic op operands =>
    exact (hev.connect op (everywhere_logic.mp h).2 (Nat.le_of_succ_le_succ hd)).told _
  | expr mode cells =>
    cases mode with
    | plain => exact (hev.reduce (everywhere_expr.mp h).2 (Nat.le_of_succ_le_succ hd)).told _
    | quoted => exact completes_pure h
    | quasi => exact completes_pure h
  | _ => exact completes_pure h

end Terminates

end Eval

namespace Value

theorem terminates_evaluate (depth : Nat) : Eval.Terminates depth (evaluate depth) := by
  induction depth with
  | zero =>
    intro v _ hd
    have hpos := v.nesting_pos
    omega
  | succ depth ih => exact ih.step

/-- First-order nodes evaluated one after another end, none deeper than it is nested. -/
theorem exists_all {nodes : List Value} {env : Env} (hn : ∀ n ∈ nodes, n.FirstOrder)
    (he : env.FirstOrder) : ∃ o, (∀ depth, (∀ n ∈ nodes, n.nesting ≤ depth) →
      Eval.all (evaluate depth) nodes env = some o) ∧ (∀ v ∈ o.value, v.FirstOrder) ∧
      o.env.FirstOrder := by
  have hnodes := (terminates_evaluate (nestingOfAll nodes)).nodes hn (Nat.le_refl _)
  obtain ⟨o, ho, hv, hlast⟩ := Eval.completes_all hnodes he
  refine ⟨o, ?_, hv, hlast⟩
  intro depth hd
  exact all_mono (nestingOfAll_le.mpr hd) ho

/-- A first-order node among first-order bindings has an outcome, and its nesting is depth enough to
find it. Value and bindings are again first-order, so what is evaluated after it ends likewise. -/
theorem first_order_terminates {node : Value} {env : Env} (hn : node.FirstOrder)
    (he : env.FirstOrder) :
    ∃ o : Outcome Value, (∀ depth, node.nesting ≤ depth → evaluate depth node env = some o) ∧
      o.value.FirstOrder ∧ o.env.FirstOrder ∧
      ∀ further : List Value, (∀ n ∈ further, n.FirstOrder) →
        ∃ o' : Outcome (List Value), (∀ depth, (∀ n ∈ further, n.nesting ≤ depth) →
          Eval.all (evaluate depth) further o.env = some o') ∧
          (∀ v ∈ o'.value, v.FirstOrder) ∧ o'.env.FirstOrder := by
  obtain ⟨o, ho, hv, hlast⟩ := terminates_evaluate node.nesting node hn (Nat.le_refl _) he
  refine ⟨o, ?_, hv, hlast, fun further hf => exists_all hf hlast⟩
  intro depth hd
  exact evaluate_mono hd ho

/-- A conditional that binds a builtin to a name, and after it a call of that name. -/
theorem first_order_terminates_binding :
    ∃ (node call : Value) (env : Env) (o : Outcome Value) (o' : Outcome (List Value)),
      node.FirstOrder ∧ call.FirstOrder ∧ env.FirstOrder ∧ node.nesting = 3 ∧
      (∀ depth, 3 ≤ depth → evaluate depth node env = some o) ∧ o.value = .nothing ∧
      Eval.all (evaluate call.nesting) [call] o.env = some o' ∧ o'.value = [.quoted [.int 2]] := by
  let pair : Builtin := ⟨"list", .atLeast 0, .list⟩
  let node : Value := .cond (.bool true) (.define "f" (.sym "list")) (.quoted [.sym "list"])
  let call : Value := .expr .plain [.sym "f", .int 2]
  let env : Env := ⟨[("list", .builtin pair)], [], .default⟩
  have hn : node.FirstOrder := by decide
  have hc : call.FirstOrder := by decide
  have he : env.FirstOrder := by
    simp [env, pair, Env.FirstOrder, Env.Binds, Env.frames, FirstOrder, Everywhere, parts, Passive]
  obtain ⟨o, ho, -, -, hmore⟩ := first_order_terminates hn he
  have hbound : evaluate 3 node env = some ⟨.nothing, env.bind "f" (.builtin pair), []⟩ := rfl
  obtain rfl := Option.some.inj ((ho 3 (Nat.le_refl _)).symm.trans hbound)
  obtain ⟨o', ho', -⟩ := hmore [call] (by simpa using hc)
  have hall := ho' call.nesting (by simp)
  have hlist : Eval.all (evaluate call.nesting) [call] (env.bind "f" (.builtin pair)) =
      some ⟨[.quoted [.int 2]], env.bind "f" (.builtin pair), []⟩ := rfl
  obtain rfl := Option.some.inj (hall.symm.trans hlist)
  exact ⟨node, call, env, _, _, hn, hc, he, rfl, ho, rfl, hall, rfl⟩

end Value

end Lisplet
