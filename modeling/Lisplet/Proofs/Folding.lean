import Mathlib.Algebra.Order.Ring.Nat
import Lisplet.Proofs.Lists

/-! Folding by the prelude and by the host. Both take in one argument after another; the host stops at
the first fault, while `foldl` hands the fault on as its accumulator, and the list that calls it again
ends with it. So they end with the same value, whatever the arguments are. -/

namespace Lisplet

open Value Eval Prelude

namespace Number

/-- The accumulator after one more argument. -/
def take (op : Arithmetic) (acc : Number) (v : Value) : Except Fault Number :=
  ofValue op.name v >>= apply op acc

theorem fold_cons (op : Arithmetic) (acc : Number) (v : Value) (rest : List Value) :
    fold op acc (v :: rest) = take op acc v >>= fun next => fold op next rest := by
  cases h : ofValue op.name v <;> simp only [fold, take, h] <;> rfl

theorem proper_value (n : Number) : n.value.Proper := by
  cases n <;> exact ⟨rfl, rfl⟩

end Number

namespace Operation

variable {op : Arithmetic} {acc next : Number} {v : Value} {rest : List Value} {fault : Fault}

theorem compute_reduce (op : Arithmetic) (acc : Number) (rest : List Value) :
    (reduce op).compute (acc.value :: rest) =
      .ofExcept (Number.fold op acc rest >>= fun total => .ok total.value) := by
  cases acc <;> rfl

theorem compute_reduce_nil : (reduce op).compute [acc.value] = acc.value := compute_reduce op acc []

/-- A fault ends it, whatever is still to come. -/
theorem compute_reduce_fault (h : Number.take op acc v = .error fault) :
    (reduce op).compute (acc.value :: v :: rest) = .error fault := by
  rw [compute_reduce, Number.fold_cons, h]
  rfl

theorem compute_reduce_cons (h : Number.take op acc v = .ok next) :
    (reduce op).compute (acc.value :: v :: rest) = (reduce op).compute (next.value :: rest) := by
  rw [compute_reduce, compute_reduce, Number.fold_cons, h]
  rfl

end Operation

theorem Value.proper_folded (op : Arithmetic) (acc : Number) (cells : List Value) :
    ∀ v ∈ [.builtin (.ofArithmetic op), acc.value, .quoted cells], v.Proper := by
  simp only [List.forall_mem_cons]
  exact ⟨⟨rfl, rfl⟩, acc.proper_value, proper_quoted cells, List.forall_mem_nil _⟩

theorem Value.runs_of_isConstant {cells : List Value} (hc : ∀ c ∈ cells, c.isConstant) (env : Env) :
    Runs cells env cells env := by
  induction cells with
  | nil => exact .nil env
  | cons c rest ih =>
    obtain ⟨hcc, hcr⟩ := List.forall_mem_cons.mp hc
    exact .next (yields_of_isConstant hcc env) (ih hcr)

theorem Number.isConstant_value (n : Number) : n.value.isConstant := by
  cases n <;> rfl

theorem Builtin.ofArithmetic_mem_catalogue (op : Arithmetic) : ofArithmetic op ∈ catalogue := by
  cases op <;> decide

namespace Env.Provides

variable {env : Env} {cells : List Value}

/-- Each call takes in one cell. The accumulator of the next call is what the builtin made of it, which
is a number or the fault that is to be the result. -/
theorem combines_foldl (h : env.Provides) (op : Arithmetic) (acc : Number)
    (hc : ∀ c ∈ cells, c.isConstant) :
    Combines [foldl, .builtin (.ofArithmetic op), acc.value, .quoted cells] env
      ((Operation.reduce op).compute (acc.value :: cells)) env := by
  induction cells generalizing env acc with
  | nil =>
    refine h.combines_function (by decide) (by simp) (proper_folded op acc []) rfl ?_
    intro e he hs
    have hacc : e.lookup "acc" = acc.value := hs.args ("acc", acc.value) (by simp)
    have hxs : e.lookup "xs" = .quoted [] := hs.args ("xs", .quoted []) (by simp)
    rw [Operation.compute_reduce_nil]
    exact ⟨e, yields_cond (he.yields_empty (yields_name hxs)) (yields_name hacc)⟩
  | cons c rest ih =>
    obtain ⟨hcc, hcr⟩ := List.forall_mem_cons.mp hc
    refine h.combines_function (by decide) (by simp) (proper_folded op acc (c :: rest)) rfl ?_
    intro e he hs
    have hf : e.lookup "f" = .builtin (.ofArithmetic op) := hs.args ("f", _) (by simp)
    have hacc : e.lookup "acc" = acc.value := hs.args ("acc", acc.value) (by simp)
    have hxs : (sym "xs").Yields e (.quoted (c :: rest)) e :=
      yields_name (hs.args ("xs", .quoted (c :: rest)) (by simp))
    have hfoldl : e.lookup "foldl" = Prelude.foldl := he.prelude (by simp [bindings])
    have hstep : (call "f" [.sym "acc", call "fst" [.sym "xs"]]).Yields e
        ((Operation.reduce op).compute [acc.value, c]) e :=
      yields_builtin hf (by simp) (.next (yields_name hacc) (.next (he.yields_fst hxs hcc) (.nil e)))
        (by simp [acc.proper_value, proper_of_isConstant hcc]) rfl fun _ => rfl
    have hargs := Runs.next (yields_name hf) (.next hstep (.next (he.yields_tail hxs) (.nil e)))
    refine ⟨e, yields_cond (he.yields_empty hxs) (yields_call hfoldl (by simp) hargs ?_)⟩
    cases ht : Number.take op acc c with
    | error fault =>
      rw [Operation.compute_reduce_fault ht, Operation.compute_reduce_fault ht]
      exact (combines_closure_fault (by simp [isNothing, quoted]) rfl).mpr ⟨rfl, rfl⟩
    | ok next =>
      rw [Operation.compute_reduce_cons ht, Operation.compute_reduce_cons ht,
        Operation.compute_reduce_nil]
      exact ih he next hcr

theorem yields_foldl (h : env.Provides) (op : Arithmetic) (a : Number)
    (hc : ∀ c ∈ cells, c.isConstant) :
    (call "foldl" [.sym op.name, a.value, .quoted cells]).Yields env
      ((Operation.reduce op).compute (a.value :: cells)) env := by
  have hop : env.lookup op.name = .builtin (.ofArithmetic op) :=
    h.builtin (Builtin.ofArithmetic_mem_catalogue op)
  have hfoldl : env.lookup "foldl" = Prelude.foldl := h.prelude (by simp [bindings])
  have hargs : Runs [.sym op.name, a.value, .quoted cells] env
      [.builtin (.ofArithmetic op), a.value, .quoted cells] env :=
    .next (yields_name hop) (.next (yields_of_isConstant a.isConstant_value env)
      (.next (yields_literal rfl) (.nil env)))
  exact yields_call hfoldl (by simp) hargs (h.combines_foldl op a hc)

theorem yields_reduction (h : env.Provides) (op : Arithmetic) (a : Number)
    (hc : ∀ c ∈ cells, c.isConstant) :
    (call op.name (a.value :: cells)).Yields env
      ((Operation.reduce op).compute (a.value :: cells)) env := by
  have hall : ∀ c ∈ a.value :: cells, c.isConstant :=
    List.forall_mem_cons.mpr ⟨a.isConstant_value, hc⟩
  refine h.yields_operation (Builtin.ofArithmetic_mem_catalogue op) (by simp)
    (runs_of_isConstant hall env) (fun v hv => proper_of_isConstant (hall v hv)) ?_ fun _ => rfl
  simp [Builtin.ofArithmetic, Arity.accepts]

end Env.Provides

/-- In a fresh session, folding with an arithmetic builtin from a number over constants ends with the
value of the builtin on all of them, a fault included, and changes nothing. -/
theorem Session.foldl_agrees_with_reduction (context : Context) (op : Arithmetic) (a : Number)
    (xs : List Value) (hx : ∀ x ∈ xs, x.isConstant) :
    ∃ v, v = (Operation.reduce op).compute (a.value :: xs) ∧
      (Value.expr .plain [.sym "foldl", .sym op.name, a.value, .quoted xs]).Yields
        (start context).1 v (start context).1 ∧
      (Value.expr .plain (.sym op.name :: a.value :: xs)).Yields
        (start context).1 v (start context).1 := by
  have h := start_provides context
  exact ⟨_, rfl, h.yields_foldl op a hx, h.yields_reduction op a hx⟩

/-- The sum leaves the range before the string is met, so the fault is that of the sum. -/
theorem Session.foldl_agrees_with_reduction_overflow : ∃ fresh : Env, fresh = (start .default).1 ∧
    (Value.expr .plain [.sym "foldl", .sym "+", .int Int64.maxValue,
      .quoted [.int 1, .str "s"]]).Yields fresh
        (.error ⟨.hostFault, "integer overflow in '+'"⟩) fresh ∧
    (Value.expr .plain [.sym "+", .int Int64.maxValue, .int 1, .str "s"]).Yields fresh
      (.error ⟨.hostFault, "integer overflow in '+'"⟩) fresh := by
  have hx : ∀ x ∈ [Value.int 1, .str "s"], x.isConstant := by simp [isConstant]
  obtain ⟨v, rfl, hboth⟩ := foldl_agrees_with_reduction .default .add (.int Int64.maxValue) _ hx
  exact ⟨_, rfl, hboth⟩

end Lisplet
