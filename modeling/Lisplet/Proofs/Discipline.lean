import Lisplet.Evaluate
import Lisplet.Proofs.Bindings
import Lisplet.Proofs.Occurrence

/-! Which values are evaluated and which result. A discipline is closed under everything that
evaluation does with values: it takes lists apart, builds lists, applies closures and fills
their frames. Many disciplines ask one thing of every part of a value. -/

namespace Lisplet

namespace Value

/-- Values that are their own result, whatever the environment. -/
def isLiteral : Value → Bool
  | .sym _ | .define _ _ | .cond _ _ _ | .logic _ _ | .seq _ | .expr .plain _ => false
  | _ => true

/-- Values that evaluation leaves as they are. -/
inductive Settled : Value → Prop where
  | literal {v : Value} (h : v.isLiteral) : Settled v
  | empty : Settled (.expr .plain [])
  | seq {items : List Value} (two : 2 ≤ items.length) (each : ∀ v ∈ items, Settled v) :
      Settled (.seq items)

/-- Names and forms, which stand for something else. -/
def isForm : Value → Bool
  | .sym _ | .define _ _ | .cond _ _ _ | .logic _ _ | .expr .plain (_ :: _) => true
  | _ => false

theorem not_settled_of_isForm {v : Value} (hf : v.isForm) : ¬ v.Settled := by
  intro hs
  cases hs with
  | empty => cases hf
  | seq => cases hf
  | literal hl =>
    unfold isForm at hf
    split at hf <;> simp_all [isLiteral]

theorem Settled.of_seq {items : List Value} (h : (Value.seq items).Settled) :
    2 ≤ items.length ∧ ∀ v ∈ items, v.Settled := by
  cases h with
  | literal h => cases h
  | seq two each => exact ⟨two, each⟩

theorem collapse_of_two_le {items : List Value} (h : 2 ≤ items.length) :
    collapse items = .seq items := by
  match items, h with
  | _ :: _ :: _, _ => rfl

/-- Neither a fault nor `nothing`; only such values are handed on as arguments. -/
def Proper (v : Value) : Prop := v.isError = false ∧ v.isNothing = false

theorem firstFault?_eq_none {values : List Value} :
    firstFault? values = none ↔ ∀ v ∈ values, v.isError = false := by
  simp [firstFault?, isError]

/-- Values without parts that operations make. -/
inductive Scalar : Value → Prop where
  | int (n : Int64) : Scalar (.int n)
  | float (x : Float) : Scalar (.float x)
  | bool (b : Bool) : Scalar (.bool b)
  | error (fault : Fault) : Scalar (.error fault)
  | nothing : Scalar .nothing

theorem Scalar.number (x : Number) : x.value.Scalar := by
  cases x with
  | int n => exact .int n
  | float x => exact .float x

end Value

namespace Operation

theorem mem_spliced {c v : Value} (h : c ∈ spliced v) :
    c = v ∨ ∃ cells, v.cells? = some cells ∧ c ∈ cells := by
  unfold spliced at h
  cases hc : v.cells? with
  | none => left; simpa [hc] using h
  | some cells => right; exact ⟨cells, rfl, by simpa [hc] using h⟩

/-- The cells of a list that an operation makes are arguments or cells of arguments. -/
def MadeOf (args cells : List Value) : Prop :=
  ∀ c ∈ cells, c ∈ args ∨ ∃ a ∈ args, ∃ inner, a.cells? = some inner ∧ c ∈ inner

theorem someCells_mem {name : Name} {v cell : Value} {rest : List Value}
    (h : someCells name v = .ok (cell, rest)) : v.cells? = some (cell :: rest) := by
  unfold someCells at h
  split at h
  · cases h
  · cases h
  · next hc => cases h; exact hc

theorem compute_reduce_scalar (op : Arithmetic) (first : Value) (rest : List Value) :
    ((Operation.reduce op).compute (first :: rest)).Scalar := by
  simp only [compute]
  cases Number.ofValue op.name first with
  | error fault => exact .error fault
  | ok acc =>
    change (Value.ofExcept (Number.fold op acc rest >>= fun total => .ok total.value)).Scalar
    cases Number.fold op acc rest with
    | error fault => exact .error fault
    | ok total => exact .number total

/-- The two operations that take a list apart give a list of some of its cells. -/
theorem someCells_map_cases (name : Name) (v : Value) (pick : Value × List Value → List Value)
    (hp : ∀ cell rest, ∀ c ∈ pick (cell, rest), c ∈ cell :: rest) :
    (Value.ofExcept ((someCells name v).map fun p => .quoted (pick p))).Scalar ∨
      ∃ cells, Value.ofExcept ((someCells name v).map fun p => .quoted (pick p)) =
        .quoted cells ∧ MadeOf [v] cells := by
  cases h : someCells name v with
  | error fault => exact Or.inl (.error fault)
  | ok p =>
    obtain ⟨cell, rest⟩ := p
    refine Or.inr ⟨pick (cell, rest), rfl, ?_⟩
    intro c hc
    exact Or.inr ⟨v, by simp, _, someCells_mem h, hp cell rest c hc⟩

/-- An operation gives a scalar, or a quoted list of what it was given. -/
theorem compute_cases (op : Operation) (args : List Value) :
    (op.compute args).Scalar ∨
      ∃ cells, op.compute args = .quoted cells ∧ MadeOf args cells := by
  unfold compute
  split
  · exact Or.inl (compute_reduce_scalar _ _ _)
  · exact Or.inl (.bool _)
  · exact Or.inl (.bool _)
  · next op a b =>
    left
    cases op.apply a b with
    | error fault => exact .error fault
    | ok b => exact .bool b
  · exact someCells_map_cases "head" _ (fun p => [p.1]) (by simp)
  · exact someCells_map_cases "tail" _ (fun p => p.2) (by grind)
  · exact Or.inr ⟨args, rfl, fun c hc => Or.inl hc⟩
  · -- Joining splices the lists among its arguments and keeps the rest as they are.
    refine Or.inr ⟨_, rfl, ?_⟩
    intro c hc
    obtain ⟨a, ha, hc⟩ := List.mem_flatMap.mp hc
    rcases mem_spliced hc with rfl | ⟨cells, hcells, hc⟩
    · exact Or.inl ha
    · exact Or.inr ⟨a, ha, cells, hcells, hc⟩
  · exact Or.inl (.error _)
  · exact Or.inl (.int _)
  · exact Or.inl .nothing

end Operation

/-- Three classes of values: those that are evaluated, those that result, and those that frames
bind. What a list holds counts as evaluated, since `eval` turns data back into code. -/
structure Discipline where
  Node : Value → Prop
  Result : Value → Prop
  Bound : Value → Prop
  cells {v cells} : Node v → v.cells? = some cells → ∀ c ∈ cells, Node c
  operands {op vs} : Node (.logic op vs) → ∀ v ∈ vs, Node v
  branches {clause yes no} : Node (.cond clause yes no) → Node clause ∧ Node yes ∧ Node no
  defined {name v} : Node (.define name v) → Node v
  code {cells} : (∀ c ∈ cells, Node c) → Node (.expr .plain cells)
  node {v} : Result v → v.Proper → Node v
  literal {v} : v.isLiteral → Node v → Result v
  scalar {v} : v.Scalar → Result v
  quoted {cells} : (∀ c ∈ cells, Node c) → Result (.quoted cells)
  collapse {vs} : (∀ v ∈ vs, Result v ∧ v.Proper) → Result (Value.collapse vs)
  sequence {nodes vs} : Node (.seq nodes) → (∀ v ∈ vs, Result v) →
    ((Value.seq nodes).Settled → Value.collapse vs = .seq nodes) → Result (Value.collapse vs)
  body {formals body captured} : Result (.lambda formals body captured) → Node body
  captured {formals body captured} :
    Result (.lambda formals body captured) → ∀ b ∈ captured, Bound b.2
  waiting {formals body captured args} : Result (.lambda formals body captured) →
    (∀ a ∈ args, Result a ∧ a.Proper) → args.length < formals.length →
    Result (.lambda (formals.drop args.length) body (Closure.scope formals captured args))
  names {b} : Result (.builtin b) → b.operation = .symbols → ∀ name, Node (.sym name)
  bound {v} : Result v → v.isError = false → Bound v
  found {v} : Bound v → Result v

namespace Discipline

variable (D : Discipline) {args : List Value}

/-- What can be an argument. -/
def Item (v : Value) : Prop := D.Result v ∧ v.Proper

theorem result_empty : D.Result (.expr .plain []) := by
  have none : ∀ v ∈ ([] : List Value), D.Item v := fun v hv => nomatch hv
  exact D.collapse none

theorem node_asCode {v : Value} (h : D.Item v) : D.Node (Operation.asCode v) := by
  have hn := D.node h.1 h.2
  cases v with
  | expr mode cells => exact D.code (D.cells hn rfl)
  | _ => exact hn

theorem result_compute (op : Operation) (h : ∀ a ∈ args, D.Item a) :
    D.Result (op.compute args) := by
  rcases op.compute_cases args with hs | ⟨cells, hc, hm⟩
  · exact D.scalar hs
  · rw [hc]
    apply D.quoted
    intro c hc
    rcases hm c hc with ha | ⟨a, ha, inner, hi, hc⟩
    · exact D.node (h c ha).1 (h c ha).2
    · exact D.cells (D.node (h a ha).1 (h a ha).2) hi c hc

theorem bound_scope {formals : List Name} {body : Value} {captured : Frame}
    (hl : D.Result (.lambda formals body captured)) (h : ∀ a ∈ args, D.Item a) :
    ∀ b ∈ Closure.scope formals captured args, D.Bound b.2 := by
  intro b hb
  rcases Frame.mem_bindAll hb with hb | hb
  · obtain ⟨hr, hp⟩ := h _ (List.of_mem_zip hb).2
    exact D.bound hr hp.1
  · exact D.captured hl b hb

end Discipline

/-- What a closure that waits for more holds: its body, its frame, and the arguments so far. -/
theorem Closure.everywhere_waiting {P : Value → Prop} {formals : List Name} {body : Value}
    {captured : Frame} {args : List Value}
    (hp : P (.lambda (formals.drop args.length) body (scope formals captured args)))
    (hl : (Value.lambda formals body captured).Everywhere P) (ha : ∀ a ∈ args, a.Everywhere P) :
    (Value.lambda (formals.drop args.length) body (scope formals captured args)).Everywhere P := by
  obtain ⟨-, hbody, hcaptured⟩ := Value.everywhere_lambda.mp hl
  refine Value.everywhere_lambda.mpr ⟨hp, hbody, ?_⟩
  intro b hb
  rcases Frame.mem_bindAll hb with hb | hb
  · exact ha _ (List.of_mem_zip hb).2
  · exact hcaptured b hb

/-- A property `P` of single parts, and a shape `R` of results, that evaluation keeps. -/
structure Pervasive (P R : Value → Prop) : Prop where
  list (mode cells) : P (.expr mode cells)
  seq (items) : P (.seq items)
  scalar {v} : v.Scalar → R v ∧ P v
  literal {v} : v.isLiteral → P v → R v
  collapse {vs} : (∀ v ∈ vs, R v) → R (Value.collapse vs)
  captured {formals body captured} : P (.lambda formals body captured) → ∀ b ∈ captured, R b.2
  waiting {formals body captured args} : P (.lambda formals body captured) →
    (∀ a ∈ args, R a) → args.length < formals.length →
    P (.lambda (formals.drop args.length) body (Closure.scope formals captured args))
  names {b} : P (.builtin b) → b.operation = .symbols → ∀ name, P (.sym name)

namespace Pervasive

variable {P R : Value → Prop}

theorem everywhere_scalar (h : Pervasive P R) {v : Value} (hs : v.Scalar) :
    v.Everywhere P := by
  rw [Value.everywhere_leaf (by cases hs <;> rfl)]
  exact (h.scalar hs).2

theorem everywhere_collapse (h : Pervasive P R) {vs : List Value}
    (hv : ∀ v ∈ vs, v.Everywhere P) : (Value.collapse vs).Everywhere P := by
  match vs, hv with
  | [], hv => exact Value.everywhere_expr.mpr ⟨h.list .plain [], hv⟩
  | [v], hv => exact hv v List.mem_cons_self
  | a :: b :: rest, hv => exact Value.everywhere_seq.mpr ⟨h.seq _, hv⟩

theorem result_collapse (h : Pervasive P R) {vs : List Value}
    (hv : ∀ v ∈ vs, R v ∧ v.Everywhere P) :
    R (Value.collapse vs) ∧ (Value.collapse vs).Everywhere P :=
  ⟨h.collapse fun v k => (hv v k).1, h.everywhere_collapse fun v k => (hv v k).2⟩

/-- Nodes have the property in every part; results also have the shape. -/
def discipline (h : Pervasive P R) : Discipline where
  Node v := v.Everywhere P
  Result v := R v ∧ v.Everywhere P
  Bound v := R v ∧ v.Everywhere P
  cells hv hc := hv.cells hc
  operands hv := (Value.everywhere_logic.mp hv).2
  branches hv := (Value.everywhere_cond.mp hv).2
  defined hv := (Value.everywhere_define.mp hv).2
  code hc := Value.everywhere_expr.mpr ⟨h.list _ _, hc⟩
  node hv _ := hv.2
  literal hl hv := ⟨h.literal hl hv.here, hv⟩
  scalar hs := ⟨(h.scalar hs).1, h.everywhere_scalar hs⟩
  quoted hc := ⟨h.literal rfl (h.list _ _), Value.everywhere_expr.mpr ⟨h.list _ _, hc⟩⟩
  collapse hv := h.result_collapse fun v k => (hv v k).1
  sequence _ hv _ := h.result_collapse hv
  body hl := (Value.everywhere_lambda.mp hl.2).2.1
  captured hl b hb :=
    ⟨h.captured hl.2.here b hb, (Value.everywhere_lambda.mp hl.2).2.2 b hb⟩
  waiting hl ha hm :=
    have hp := h.waiting hl.2.here (fun a k => (ha a k).1.1) hm
    ⟨h.literal rfl hp, Closure.everywhere_waiting hp hl.2 fun a k => (ha a k).1.2⟩
  names hb hs name := (Value.everywhere_leaf rfl).mpr (h.names hb.2.here hs name)
  bound hv _ := hv
  found hv := hv

end Pervasive

end Lisplet
