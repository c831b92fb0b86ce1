import Lisplet.Value.Basic

/-! What occurs in a value: the value itself and everything inside its cells, operands,
branches, closure bodies and captured frames. A property of a value at any depth is a
property of all its parts. -/

namespace Lisplet.Value

mutual

/-- Every value that occurs in a value, itself first. -/
def parts : Value → List Value
  | .expr mode cells => .expr mode cells :: partsOfAll cells
  | .lambda formals body captured =>
    .lambda formals body captured :: (body.parts ++ partsOfBindings captured)
  | .define name value => .define name value :: value.parts
  | .cond clause yes no => .cond clause yes no :: (clause.parts ++ yes.parts ++ no.parts)
  | .logic op operands => .logic op operands :: partsOfAll operands
  | .seq items => .seq items :: partsOfAll items
  | v => [v]

def partsOfAll : List Value → List Value
  | [] => []
  | v :: rest => v.parts ++ partsOfAll rest

def partsOfBindings : List (Name × Value) → List Value
  | [] => []
  | (_, v) :: rest => v.parts ++ partsOfBindings rest

end

/-- The property holds of everything that occurs in the value. -/
def Everywhere (P : Value → Prop) (v : Value) : Prop := ∀ w ∈ v.parts, P w

instance (P : Value → Prop) [DecidablePred P] (v : Value) : Decidable (v.Everywhere P) :=
  inferInstanceAs (Decidable (∀ w ∈ v.parts, P w))

section

variable {P : Value → Prop}

theorem forall_mem_partsOfAll {vs : List Value} :
    (∀ w ∈ partsOfAll vs, P w) ↔ ∀ v ∈ vs, v.Everywhere P := by
  induction vs with
  | nil => simp [partsOfAll]
  | cons v rest ih =>
    rw [List.forall_mem_cons, ← ih]
    exact List.forall_mem_append

theorem forall_mem_partsOfBindings {bs : List (Name × Value)} :
    (∀ w ∈ partsOfBindings bs, P w) ↔ ∀ b ∈ bs, b.2.Everywhere P := by
  induction bs with
  | nil => simp [partsOfBindings]
  | cons b rest ih =>
    rw [List.forall_mem_cons, ← ih]
    exact List.forall_mem_append

theorem Everywhere.here {v : Value} (h : v.Everywhere P) : P v := by
  apply h
  cases v <;> simp [parts]

theorem everywhere_leaf {v : Value} (h : v.parts = [v]) : v.Everywhere P ↔ P v := by
  simp [Everywhere, h]

@[simp] theorem everywhere_expr {mode : Quoting} {cells : List Value} :
    (expr mode cells).Everywhere P ↔ P (expr mode cells) ∧ ∀ c ∈ cells, c.Everywhere P := by
  rw [Everywhere, parts, List.forall_mem_cons, forall_mem_partsOfAll]

@[simp] theorem everywhere_seq {items : List Value} :
    (seq items).Everywhere P ↔ P (seq items) ∧ ∀ c ∈ items, c.Everywhere P := by
  rw [Everywhere, parts, List.forall_mem_cons, forall_mem_partsOfAll]

@[simp] theorem everywhere_logic {op : Connective} {operands : List Value} :
    (logic op operands).Everywhere P ↔
      P (logic op operands) ∧ ∀ c ∈ operands, c.Everywhere P := by
  rw [Everywhere, parts, List.forall_mem_cons, forall_mem_partsOfAll]

@[simp] theorem everywhere_define {name : Name} {value : Value} :
    (define name value).Everywhere P ↔ P (define name value) ∧ value.Everywhere P := by
  rw [Everywhere, parts, List.forall_mem_cons, Everywhere]

@[simp] theorem everywhere_cond {clause yes no : Value} :
    (cond clause yes no).Everywhere P ↔ P (cond clause yes no) ∧
      clause.Everywhere P ∧ yes.Everywhere P ∧ no.Everywhere P := by
  rw [Everywhere, parts, List.forall_mem_cons, List.append_assoc, List.forall_mem_append,
    List.forall_mem_append]
  rfl

@[simp] theorem everywhere_lambda {formals : List Name} {body : Value}
    {captured : List (Name × Value)} :
    (lambda formals body captured).Everywhere P ↔ P (lambda formals body captured) ∧
      body.Everywhere P ∧ ∀ b ∈ captured, b.2.Everywhere P := by
  rw [Everywhere, parts, List.forall_mem_cons, List.forall_mem_append,
    forall_mem_partsOfBindings]
  rfl

end

/-- The cells of a list or of a sequence are among its parts. -/
theorem Everywhere.cells {P : Value → Prop} {v : Value} {cells : List Value} (hv : v.Everywhere P)
    (hc : v.cells? = some cells) : ∀ c ∈ cells, c.Everywhere P := by
  cases v with
  | expr mode inner =>
    cases hc
    exact (everywhere_expr.mp hv).2
  | seq inner =>
    cases hc
    exact (everywhere_seq.mp hv).2
  | _ => cases hc

end Lisplet.Value
