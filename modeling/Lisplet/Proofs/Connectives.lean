import Lisplet.Proofs.Outcomes

/-! Forms of `and` and `or`. Their operands can be split at any place and grouped in any way: what
the first ones come to is the result if they decide, and otherwise the others go on from the
environment that they left. Evaluation is not asked about an operand behind the one that decides. -/

namespace Lisplet

namespace Eval

variable {α β γ : Type}

protected theorem pure_bind (a : α) (f : α → Eval β) : pure a >>= f = f a := by
  funext env
  change Eval.bind (Eval.pure a) f env = f a env
  simp only [Eval.bind, Eval.pure]
  cases f a env with
  | none => rfl
  | some o => simp

protected theorem bind_assoc (x : Eval α) (f : α → Eval β) (g : β → Eval γ) :
    x >>= f >>= g = x >>= fun a => f a >>= g := by
  funext env
  change Eval.bind (Eval.bind x f) g env = Eval.bind x (fun a => Eval.bind (f a) g) env
  unfold Eval.bind
  cases x env with
  | none => rfl
  | some first =>
    cases hf : f first.value first.env with
    | none => simp [hf]
    | some second =>
      cases hg : g second.value second.env with
      | none => simp [hf, hg]
      | some third => simp [hf, hg]

end Eval

open Eval

namespace Value

/-- What an operand counts as: a boolean or a fault as itself, anything else as a fault. -/
def judged (op : Connective) : Value → Value
  | .bool b => .bool b
  | .error fault => .error fault
  | other => .error (notBoolean s!"'{op.name}' operand" other)

/-- What is still to do after operands that count as a value: the rest is evaluated only if the
value does not decide. -/
def resume (ev : Value → Eval Value) (op : Connective) (rest : List Value) : Value → Eval Value
  | .bool b => if b = op.deciding then pure (.bool b) else connect ev op rest
  | v => pure v

def IsVerdict (v : Value) : Prop := (∃ b, v = .bool b) ∨ ∃ fault, v = .error fault

section

variable {op : Connective} {xs ys : List Value} {env mid last : Env} {v w : Value}

theorem isVerdict_judged (op : Connective) (w : Value) : (w.judged op).IsVerdict := by
  cases w with
  | bool b => exact Or.inl ⟨b, rfl⟩
  | _ => exact Or.inr ⟨_, rfl⟩

theorem IsVerdict.judged_eq (h : w.IsVerdict) : w.judged op = w := by
  rcases h with ⟨b, rfl⟩ | ⟨fault, rfl⟩ <;> rfl

theorem resume_undecided (ev : Value → Eval Value) :
    resume ev op ys (.bool !op.deciding) = connect ev op ys := by
  have hb : (!op.deciding) ≠ op.deciding := by cases op.deciding <;> decide
  rw [resume, if_neg hb]

theorem resume_decided (ev : Value → Eval Value) (hw : w ≠ .bool !op.deciding) :
    resume ev op ys w = pure w := by
  cases w with
  | bool b =>
    by_cases hb : b = op.deciding
    · rw [resume, if_pos hb]
    · exact absurd (congrArg Value.bool (Bool.eq_not_of_ne hb)) hw
  | _ => rfl

theorem connect_cons (ev : Value → Eval Value) (op : Connective) (x : Value) (rest : List Value) :
    connect ev op (x :: rest) = ev x >>= fun w => resume ev op rest (w.judged op) := by
  rw [connect]
  refine congrArg _ (funext fun w => ?_)
  cases w <;> rfl

theorem connect_append (ev : Value → Eval Value) (op : Connective) (xs ys : List Value) :
    connect ev op (xs ++ ys) = connect ev op xs >>= resume ev op ys := by
  induction xs with
  | nil => rw [connect, Eval.pure_bind, resume_undecided, List.nil_append]
  | cons x xs ih =>
    have hr (w : Value) : resume ev op (xs ++ ys) w = resume ev op xs w >>= resume ev op ys := by
      by_cases hw : w = .bool !op.deciding
      · rw [hw, resume_undecided, resume_undecided, ih]
      · rw [resume_decided ev hw, resume_decided ev hw, Eval.pure_bind, resume_decided ev hw]
    simp only [List.cons_append, connect_cons, Eval.bind_assoc, hr]

theorem connect_congr {ev ev' : Value → Eval Value} (h : ∀ x ∈ xs, ev x = ev' x) :
    connect ev op xs = connect ev' op xs := by
  induction xs with
  | nil => rfl
  | cons x xs ih =>
    obtain ⟨hx, hr⟩ := List.forall_mem_cons.mp h
    have hs (w : Value) : resume ev op xs w = resume ev' op xs w := by
      by_cases hw : w = .bool !op.deciding
      · rw [hw, resume_undecided, resume_undecided, ih hr]
      · rw [resume_decided ev hw, resume_decided ev' hw]
    simp only [connect_cons, hx, hs]

theorem isVerdict_connect {ev : Value → Eval Value} {o : Outcome Value}
    (h : connect ev op xs env = some o) : o.value.IsVerdict := by
  induction xs generalizing env o with
  | nil =>
    cases h
    exact Or.inl ⟨_, rfl⟩
  | cons x xs ih =>
    rw [connect_cons] at h
    obtain ⟨first, second, -, hs, rfl⟩ := bind_eq_some.mp h
    by_cases hw : first.value.judged op = .bool !op.deciding
    · rw [hw, resume_undecided] at hs
      exact ih (o := second) hs
    · rw [resume_decided ev hw] at hs
      cases hs
      exact isVerdict_judged op first.value

/-- No evaluator is asked about operands behind the one that decides: whatever treats the others
alike ends in the same way, with the same events. -/
theorem connect_decided {ev ev' : Value → Eval Value} {o : Outcome Value}
    (h : connect ev op xs env = some o) (ho : o.value ≠ .bool !op.deciding)
    (he : ∀ x ∈ xs, ev' x = ev x) (ys : List Value) : connect ev' op (xs ++ ys) env = some o := by
  rw [connect_append, connect_congr he]
  refine bind_eq_some.mpr ⟨o, ⟨o.value, o.env, []⟩, h, ?_, ?_⟩
  · rw [resume_decided ev' ho]
    rfl
  · rw [List.append_nil]

theorem steady_resume (op : Connective) (ys : List Value) (w : Value) :
    Steady fun depth => resume (evaluate depth) op ys w := by
  by_cases hw : w = .bool !op.deciding
  · simp only [hw, resume_undecided]
    exact steady_connect op ys
  · simp only [resume_decided _ hw]
    exact fun _ _ _ _ _ h => h

theorem ends_resume : Ends (fun depth => resume (evaluate depth) op ys w) mid v last ↔
    (w = .bool !op.deciding ∧ (logic op ys).Yields mid v last) ∨
      (w ≠ .bool !op.deciding ∧ v = w ∧ last = mid) := by
  by_cases hw : w = .bool !op.deciding
  · simp only [hw, resume_undecided, ← yields_logic_iff, true_and, ne_eq, not_true, false_and,
      or_false]
  · simp only [resume_decided _ hw, ends_pure, hw, false_and, ne_eq, not_false_eq_true, true_and,
      false_or]

theorem yields_logic_append : (logic op (xs ++ ys)).Yields env v last ↔
    ∃ w mid, (logic op xs).Yields env w mid ∧
      Ends (fun depth => resume (evaluate depth) op ys w) mid v last := by
  simp only [yields_logic_iff, connect_append]
  exact ends_bind (steady_connect op xs) (steady_resume op ys)

theorem yields_logic_cons {x : Value} : (logic op (x :: ys)).Yields env v last ↔
    ∃ w mid, x.Yields env w mid ∧
      Ends (fun depth => resume (evaluate depth) op ys (w.judged op)) mid v last := by
  simp only [yields_logic_iff, connect_cons]
  exact ends_bind (steady_evaluate x) fun w => steady_resume op ys (w.judged op)

theorem isVerdict_logic (h : (logic op xs).Yields env w mid) : w.IsVerdict := by
  obtain ⟨depth, events, h⟩ := yields_logic_iff.mp h
  exact isVerdict_connect h

theorem yields_logic_flatten : (logic op (logic op xs :: ys)).Yields env v last ↔
    (logic op (xs ++ ys)).Yields env v last := by
  rw [yields_logic_cons, yields_logic_append]
  refine exists_congr fun w => exists_congr fun mid => and_congr_right fun hw => ?_
  rw [(isVerdict_logic hw).judged_eq]

end

/-- Operands can be split anywhere. The first part comes to a boolean or to a fault; the form goes on
with the second part in the environment that the first one left, if that came to the boolean that
does not decide, and otherwise it ends there. An inner form of the same kind in front is as good as
its operands. Once operands have decided, those behind them are not evaluated: the outcome is the
same whatever an evaluator would make of them. -/
theorem logic_splits_and_flattens (op : Connective) (xs ys : List Value) (env : Env) :
    (∀ w mid, (logic op xs).Yields env w mid → (∃ b, w = .bool b) ∨ ∃ fault, w = .error fault) ∧
    (∀ v last, (logic op (xs ++ ys)).Yields env v last ↔ ∃ w mid, (logic op xs).Yields env w mid ∧
      ((w = .bool !op.deciding ∧ (logic op ys).Yields mid v last) ∨
        (w ≠ .bool !op.deciding ∧ v = w ∧ last = mid))) ∧
    (∀ v last, (logic op ([logic op xs] ++ ys)).Yields env v last ↔
      (logic op (xs ++ ys)).Yields env v last) ∧
    ∀ depth o, connect (evaluate depth) op xs env = some o → o.value ≠ .bool !op.deciding →
      ∀ ev : Value → Eval Value, (∀ x ∈ xs, ev x = evaluate depth x) →
        connect ev op (xs ++ ys) env = some o := by
  refine ⟨?_, ?_, ?_, ?_⟩
  · intro w mid hw
    exact isVerdict_logic hw
  · intro v last
    simp only [yields_logic_append, ends_resume]
  · intro v last
    exact yields_logic_flatten
  · intro depth o h ho ev he
    exact connect_decided h ho he ys

/-- The operand that decides also binds a name, and it is evaluated although the next one cannot be. -/
theorem logic_splits_and_flattens_binding :
    ∃ (x y : Value) (last : Env), x = .expr .plain [.define "x" (.int 1), .bool false] ∧
      y = .define "y" (.sym "x") ∧ last = (Env.empty .default).bind "x" (.int 1) ∧
      (logic .and [.bool true, x]).Yields (.empty .default) (.bool false) last ∧
      (logic .and ([.bool true, x] ++ [y])).Yields (.empty .default) (.bool false) last ∧
      (logic .and ([logic .and [.bool true, x]] ++ [y])).Yields (.empty .default) (.bool false) last ∧
      ∀ ev : Value → Eval Value, (∀ z ∈ [.bool true, x], ev z = evaluate 3 z) → ev y = Eval.exhausted →
        connect ev .and ([.bool true, x] ++ [y]) (.empty .default) = some ⟨.bool false, last, []⟩ := by
  have hx : (logic .and [.bool true, .expr .plain [.define "x" (.int 1), .bool false]]).Yields
      (.empty .default) (.bool false) ((Env.empty .default).bind "x" (.int 1)) := ⟨5, [], rfl⟩
  obtain ⟨-, hsplit, hflat, hstop⟩ := logic_splits_and_flattens .and
    [.bool true, .expr .plain [.define "x" (.int 1), .bool false]] [.define "y" (.sym "x")]
    (.empty .default)
  have hxy := (hsplit _ _).mpr ⟨_, _, hx, Or.inr ⟨by simp [Connective.deciding], rfl, rfl⟩⟩
  refine ⟨_, _, _, rfl, rfl, rfl, hx, hxy, (hflat _ _).mpr hxy, ?_⟩
  intro ev hev _
  exact hstop 3 _ rfl (by simp [Connective.deciding]) ev hev

end Value

end Lisplet
