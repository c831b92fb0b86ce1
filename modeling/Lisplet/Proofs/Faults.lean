import Mathlib.Tactic.Common
import Lisplet.Proofs.Lexing
import Lisplet.Proofs.Sessions

/-! Faults never hide in data. A fault is the result of the form in which it arises, and so is a
missing value; every place that stores values keeps them out, so none of them can occur inside a
list, a sequence or a closure. -/

namespace Lisplet

namespace Value

/-- No fault and no missing value occurs in it, at any depth. -/
def FaultFree (v : Value) : Prop := v.Everywhere Proper

/-- What is asked of each part. Sequences and captured frames hold values that were evaluated, so
evaluating them again cannot give a fault. -/
def Sound : Value → Prop
  | .error _ | .nothing => False
  | .seq items => (Value.seq items).Settled
  | .lambda _ _ captured => ∀ b ∈ captured, b.2.Settled
  | _ => True

theorem Sound.proper {v : Value} (h : v.Sound) : v.Proper := by
  cases v with
  | error => exact h.elim
  | nothing => exact h.elim
  | _ => exact ⟨rfl, rfl⟩

theorem Written.sound {v : Value} (h : v.Written) : v.Sound := by
  cases v with
  | lambda formals body captured =>
    obtain ⟨-, rfl⟩ := h
    intro b hb
    cases hb
  | seq | error | nothing => exact h.elim
  | _ => trivial

theorem not_proper_error (fault : Fault) : ¬ (Value.error fault).Proper := fun h => nomatch h.1

theorem not_proper_nothing : ¬ Value.nothing.Proper := fun h => nomatch h.2

/-- A value that can be stored. -/
def Kept (v : Value) : Prop := v.Settled ∧ v.Everywhere Sound

theorem Kept.faultFree {v : Value} (h : v.Kept) : v.FaultFree := fun w hw => (h.2 w hw).proper

theorem Kept.collapse {vs : List Value} (h : ∀ v ∈ vs, v.Kept) : (Value.collapse vs).Kept := by
  match vs, h with
  | [], _ => exact ⟨.empty, everywhere_expr.mpr ⟨trivial, by simp⟩⟩
  | [v], h => exact h v List.mem_cons_self
  | a :: b :: rest, h =>
    have hs : (Value.seq (a :: b :: rest)).Settled := .seq (by simp) fun v hv => (h v hv).1
    exact ⟨hs, everywhere_seq.mpr ⟨hs, fun v hv => (h v hv).2⟩⟩

theorem kept_leaf {v : Value} (hl : v.isLiteral) (hp : v.parts = [v]) (hs : v.Sound) : v.Kept :=
  ⟨.literal hl, (everywhere_leaf hp).mpr hs⟩

theorem Scalar.kept {v : Value} (h : v.Scalar) (hp : v.Proper) : v.Kept := by
  cases h with
  | error fault => exact (not_proper_error fault hp).elim
  | nothing => exact (not_proper_nothing hp).elim
  | _ => exact kept_leaf rfl rfl trivial

theorem Kept.waiting {formals : List Name} {body : Value} {captured : Frame} {args : List Value}
    (hl : (Value.lambda formals body captured).Kept) (ha : ∀ a ∈ args, a.Kept) :
    (Value.lambda (formals.drop args.length) body (Closure.scope formals captured args)).Kept := by
  refine ⟨.literal rfl, Closure.everywhere_waiting ?_ hl.2 fun a hm => (ha a hm).2⟩
  have hc : ∀ b ∈ captured, b.2.Settled := hl.2.here
  intro b hb
  rcases Frame.mem_bindAll hb with hb | hb
  · exact (ha _ (List.of_mem_zip hb).2).1
  · exact hc b hb

end Value

open Value in
/-- Sound code gives a fault, `nothing`, or a value that can be stored; frames hold no faults. -/
def keeping : Discipline where
  Node v := v.Everywhere Sound
  Result v := v.Proper → v.Kept
  Bound v := v.isNothing = false → v.Kept
  cells hv hc := hv.cells hc
  operands hv := (everywhere_logic.mp hv).2
  branches hv := (everywhere_cond.mp hv).2
  defined hv := (everywhere_define.mp hv).2
  code hc := everywhere_expr.mpr ⟨trivial, hc⟩
  node hv hp := (hv hp).2
  literal hl hv _ := ⟨.literal hl, hv⟩
  scalar hs hp := hs.kept hp
  quoted hc _ := ⟨.literal rfl, everywhere_expr.mpr ⟨trivial, hc⟩⟩
  collapse hv _ := .collapse fun v hm => (hv v hm).1 (hv v hm).2
  sequence hn _ hs _ := by
    -- The items were settled, so the sequence is its own result.
    rw [hs hn.here]
    exact ⟨hn.here, hn⟩
  body hl := (everywhere_lambda.mp (hl ⟨rfl, rfl⟩).2).2.1
  captured hl b hb _ := by
    obtain ⟨hs, -, hc⟩ := everywhere_lambda.mp (hl ⟨rfl, rfl⟩).2
    exact ⟨hs b hb, hc b hb⟩
  waiting hl ha _ _ := (hl ⟨rfl, rfl⟩).waiting fun a hm => (ha a hm).1 (ha a hm).2
  names _ _ _ := (everywhere_leaf rfl).mpr trivial
  bound hv he hn := hv ⟨he, hn⟩
  found hv hp := hv hp.2

namespace Session

theorem keeping_node {form : Value} (h : form.Everywhere Value.Written) : keeping.Node form :=
  fun w hw => (h w hw).sound

theorem Reached.binds_kept {context : Context} {env : Env} (h : Reached context env) :
    env.Binds fun _ v => keeping.Bound v := by
  refine h.binds keeping (fun form => keeping_node) ?_ ?_
  · intro b _ _
    exact Value.kept_leaf rfl rfl trivial
  · intro x _
    exact Value.kept_leaf rfl rfl trivial

theorem eq_nothing_of_isNothing {v : Value} (h : v.isNothing = true) : v = .nothing := by
  cases v <;> first | rfl | cases h

/-- In every state of a session a global binding is `nothing` or fault-free, and each form of a
source, evaluated there or after any forms of the source, gives a fault, `nothing`, or a fault-free
value. -/
theorem reached_faultFree {context : Context} {env : Env} (h : Reached context env) :
    (env.Binds fun _ v => v = .nothing ∨ v.FaultFree) ∧
    ∀ text, (Program.ofText text).problems = [] →
      ∀ before ⊆ (Program.ofText text).forms, ∀ vs mid, Value.Runs before env vs mid →
      ∀ form ∈ (Program.ofText text).forms, ∀ o, form.Returns mid o →
        (∃ fault, o.value = .error fault) ∨ o.value = .nothing ∨ o.value.FaultFree := by
  have hb := h.binds_kept
  refine ⟨?_, ?_⟩
  · intro f hf b hm
    cases hn : b.2.isNothing with
    | true => exact Or.inl (eq_nothing_of_isNothing hn)
    | false => exact Or.inr (hb f hf b hm hn).faultFree
  · intro text _ before hsub vs mid hr form hm o ho
    have hnode : ∀ form ∈ (Program.ofText text).forms, keeping.Node form :=
      fun form hm => keeping_node (Program.written_forms text form hm)
    have hmid := (keeping.results_of_runs (fun form hm => hnode form (hsub hm)) hb hr).2
    obtain ⟨depth, ho⟩ := ho
    have hv : keeping.Result o.value := (keeping.result_of_evaluate (hnode form hm) hmid ho).1
    cases hw : o.value with
    | error fault => exact Or.inl ⟨fault, rfl⟩
    | nothing => exact Or.inr (Or.inl rfl)
    | _ =>
      right; right
      rw [hw] at hv
      exact (hv ⟨rfl, rfl⟩).faultFree

/-- A session in which `x` is bound to `nothing`, and a form that gives a sequence there. -/
theorem reached_faultFree_sequence :
    ∃ env o, Reached .default env ∧ env.get? "x" = some .nothing ∧
      (Value.expr .plain [.int 1, .quoted [.int 2]]).Returns env o ∧
      o.value = .seq [.int 1, .quoted [.int 2]] ∧
      (env.Binds fun _ v => v = .nothing ∨ v.FaultFree) ∧
      ((∃ fault, o.value = .error fault) ∨ o.value = .nothing ∨ o.value.FaultFree) := by
  have hd : Program.ofText "(define x (define y 1))" =
      ⟨[.define "x" (.define "y" (.int 1))], []⟩ := by
    apply Program.ofText_of_chars rfl <;> decide +kernel
  have hf : Program.ofText "(1 '(2))" =
      ⟨[.expr .plain [.int 1, .quoted [.int 2]]], []⟩ := by
    apply Program.ofText_of_chars rfl <;> decide +kernel
  obtain ⟨fresh, hs⟩ : ∃ fresh, Reached .default fresh := ⟨_, .start⟩
  let env := (fresh.bind "y" (.int 1)).bind "x" .nothing
  have hx : (Value.define "x" (.define "y" (.int 1))).Returns fresh ⟨.nothing, env, _⟩ :=
    ⟨3, rfl⟩
  have he : Executes "(define x (define y 1))" fresh (.ok .nothing) env := by
    refine (executes_iff (by rw [hd])).mpr ⟨[.nothing], ?_, rfl⟩
    rw [hd]
    exact .cons hx (.nil env)
  have henv : Reached .default env := .execute hs he
  have ho : (Value.expr .plain [.int 1, .quoted [.int 2]]).Returns env
      ⟨.seq [.int 1, .quoted [.int 2]], env, _⟩ := ⟨2, rfl⟩
  have hb := reached_faultFree henv
  refine ⟨env, _, henv, by simp [env, Env.get?_bind], ho, rfl, hb.1, ?_⟩
  exact hb.2 "(1 '(2))" (by rw [hf]) [] (by simp) [] env (.nil env) _ (by rw [hf]; simp) _ ho

end Session

end Lisplet
