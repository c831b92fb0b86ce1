import Lisplet.Proofs.Runs

/-! Canonical values: what evaluation leaves nothing to do with. Evaluating clean code in an
environment of clean canonical values gives a clean canonical value and leaves such an
environment, and a canonical value evaluates to itself in any environment. -/

namespace Lisplet

namespace Value

inductive Canonical : Value → Prop where
  | int (n : Int64) : Canonical (.int n)
  | float (x : Float) : Canonical (.float x)
  | bool (b : Bool) : Canonical (.bool b)
  | str (s : String) : Canonical (.str s)
  | lambda (formals : List Name) (body : Value) (captured : List (Name × Value)) :
      Canonical (.lambda formals body captured)
  | error (fault : Fault) : Canonical (.error fault)
  | nothing : Canonical .nothing
  | builtin {b : Builtin} (h : b ∈ Builtin.catalogue) : Canonical (.builtin b)
  | data {mode : Quoting} (h : mode ≠ .plain) (cells : List Value) : Canonical (.expr mode cells)
  | empty : Canonical (.expr .plain [])
  | seq {items : List Value} (two : 2 ≤ items.length) (each : ∀ v ∈ items, Canonical v) :
      Canonical (.seq items)

/-- What a clean value asks of each of its parts; the values in a captured frame are parts
themselves. -/
def Genuine : Value → Prop
  | .builtin b => b ∈ Builtin.catalogue
  | .lambda _ _ captured => ∀ b ∈ captured, b.2.Canonical
  | _ => True

def Clean (v : Value) : Prop := v.Everywhere Genuine

theorem Canonical.collapse {vs : List Value} (h : ∀ v ∈ vs, v.Canonical) :
    (Value.collapse vs).Canonical := by
  match vs, h with
  | [], _ => exact .empty
  | [v], h => exact h v List.mem_cons_self
  | a :: b :: rest, h => exact .seq (by simp) h

theorem Canonical.of_literal {v : Value} (hl : v.isLiteral) (hg : v.Genuine) : v.Canonical := by
  cases v with
  | int n => exact .int n
  | float x => exact .float x
  | bool b => exact .bool b
  | str s => exact .str s
  | lambda formals body captured => exact .lambda formals body captured
  | builtin b => exact .builtin hg
  | error fault => exact .error fault
  | nothing => exact .nothing
  | expr mode cells =>
    refine .data ?_ cells
    rintro rfl
    cases hl
  | _ => cases hl

theorem pervasive_canonical : Pervasive Genuine Canonical where
  list _ _ := trivial
  seq _ := trivial
  scalar hs := by
    cases hs with
    | int n => exact ⟨.int n, trivial⟩
    | float x => exact ⟨.float x, trivial⟩
    | bool b => exact ⟨.bool b, trivial⟩
    | error fault => exact ⟨.error fault, trivial⟩
    | nothing => exact ⟨.nothing, trivial⟩
  literal := Canonical.of_literal
  collapse := Canonical.collapse
  captured hg := hg
  waiting hg ha _ := by
    intro b hb
    rcases Frame.mem_bindAll hb with hb | hb
    · exact ha _ (List.of_mem_zip hb).2
    · exact hg b hb
  names _ _ _ := trivial

/-- At this depth the value evaluates to itself in every environment. -/
def FixedAt (depth : Nat) (v : Value) : Prop :=
  ∀ e, ∃ events, evaluate depth v e = some ⟨v, e, events⟩

theorem FixedAt.mono {depth depth' : Nat} {v : Value} (h : v.FixedAt depth)
    (hd : depth ≤ depth') : v.FixedAt depth' := by
  intro e
  obtain ⟨events, he⟩ := h e
  exact ⟨events, evaluate_mono hd he⟩

theorem fixedAt_literal {v : Value} (h : v.isLiteral) : v.FixedAt 1 := by
  intro e
  refine ⟨[], ?_⟩
  cases v with
  | expr mode cells =>
    cases mode with
    | plain => cases h
    | quoted => rfl
    | quasi => rfl
  | sym _ | define _ _ | cond _ _ _ | logic _ _ | seq _ => cases h
  | _ => rfl

theorem exists_fixedAt_all {vs : List Value} (h : ∀ v ∈ vs, ∃ depth, v.FixedAt depth) :
    ∃ depth, ∀ v ∈ vs, v.FixedAt depth := by
  induction vs with
  | nil => exact ⟨0, by simp⟩
  | cons v rest ih =>
    obtain ⟨here, hv⟩ := h v List.mem_cons_self
    obtain ⟨there, hr⟩ := ih fun w hw => h w (List.mem_cons_of_mem _ hw)
    refine ⟨max here there, List.forall_mem_cons.mpr ⟨hv.mono (Nat.le_max_left _ _), ?_⟩⟩
    intro w hw
    exact (hr w hw).mono (Nat.le_max_right _ _)

theorem all_fixed {depth : Nat} {vs : List Value} (h : ∀ v ∈ vs, v.FixedAt depth) (e : Env) :
    ∃ events, Eval.all (evaluate depth) vs e = some ⟨vs, e, events⟩ := by
  induction vs with
  | nil => exact ⟨[], rfl⟩
  | cons v rest ih =>
    obtain ⟨first, hv⟩ := h v List.mem_cons_self e
    obtain ⟨later, hr⟩ := ih fun w hw => h w (List.mem_cons_of_mem _ hw)
    have hrest : (Eval.all (evaluate depth) rest >>= fun bs => pure (v :: bs)) e =
        some ⟨v :: rest, e, later ++ []⟩ := Eval.bind_eq_some.mpr ⟨_, _, hr, rfl, rfl⟩
    exact ⟨_, Eval.bind_eq_some.mpr ⟨_, _, hv, hrest, rfl⟩⟩

theorem fixedAt_seq {depth : Nat} {items : List Value} (two : 2 ≤ items.length)
    (h : ∀ v ∈ items, v.FixedAt depth) : (seq items).FixedAt (depth + 1) := by
  intro e
  obtain ⟨events, ha⟩ := all_fixed h e
  have hc : collapse items = .seq items := by
    match items, two with
    | _ :: _ :: _, _ => rfl
  have hp : (pure (collapse items) : Eval Value) e = some ⟨.seq items, e, []⟩ := by
    rw [hc]
    rfl
  exact ⟨_, Eval.bind_eq_some.mpr ⟨_, _, ha, hp, rfl⟩⟩

theorem Canonical.exists_fixedAt {v : Value} (h : v.Canonical) : ∃ depth, v.FixedAt depth := by
  induction h with
  | @data mode h cells =>
    cases mode with
    | plain => exact (h rfl).elim
    | quoted => exact ⟨1, fixedAt_literal rfl⟩
    | quasi => exact ⟨1, fixedAt_literal rfl⟩
  | empty => exact ⟨1, fun e => ⟨_, Eval.bind_eq_some.mpr ⟨_, _, rfl, rfl, rfl⟩⟩⟩
  | seq two each ih =>
    -- Sequences nest, so the depth is one more than that of the deepest item.
    obtain ⟨depth, hd⟩ := exists_fixedAt_all ih
    exact ⟨depth + 1, fixedAt_seq two hd⟩
  | _ => exact ⟨1, fixedAt_literal rfl⟩

/-- Evaluation of clean code among clean canonical bindings gives a clean canonical value, keeps
the bindings so, and the value evaluates to itself wherever it is evaluated again. -/
theorem evaluate_canonical_idempotent {node : Value} {env : Env} {o : Outcome Value}
    (hn : node.Clean) (hb : env.Binds fun _ v => v.Canonical ∧ v.Clean)
    (h : node.Returns env o) :
    (o.value.Canonical ∧ o.value.Clean) ∧ (o.env.Binds fun _ v => v.Canonical ∧ v.Clean) ∧
      ∀ e, ∃ events, o.value.Returns e ⟨o.value, e, events⟩ := by
  obtain ⟨depth, h⟩ := h
  obtain ⟨hr, he⟩ := pervasive_canonical.discipline.result_of_evaluate hn hb h
  obtain ⟨again, hfix⟩ := hr.1.exists_fixedAt
  refine ⟨hr, he, ?_⟩
  intro e
  obtain ⟨events, hv⟩ := hfix e
  exact ⟨events, again, hv⟩

/-- A closure that is given a list of symbols for one of its two formals waits for the other. -/
theorem evaluate_canonical_idempotent_curried :
    ∃ o : Outcome Value,
      o.value = .lambda ["y"] (.expr .plain [.sym "join", .sym "x", .sym "y"])
        [("x", .quoted [.sym "a"])] ∧
      (o.value.Canonical ∧ o.value.Clean) ∧ (o.env.Binds fun _ v => v.Canonical ∧ v.Clean) ∧
      ∀ e, ∃ events, o.value.Returns e ⟨o.value, e, events⟩ := by
  let pair : Value := .lambda ["x", "y"] (.expr .plain [.sym "join", .sym "x", .sym "y"]) []
  let node : Value := .expr .plain [pair, .quoted [.sym "a"]]
  let env : Env := ⟨[], [[("join", .builtin ⟨"join", .atLeast 1, .join⟩)]], .default⟩
  have hn : node.Clean := by
    simp [node, pair, Clean, Everywhere, Genuine, quoted, parts, partsOfAll, partsOfBindings]
  have hj : (⟨"join", .atLeast 1, .join⟩ : Builtin) ∈ Builtin.catalogue := by decide
  have hb : env.Binds fun _ v => v.Canonical ∧ v.Clean := by
    simpa [env, Env.Binds, Env.frames, Clean, Everywhere, Genuine, parts] using
      And.intro (Canonical.builtin hj) hj
  have hr : node.Returns env ⟨.lambda ["y"] (.expr .plain [.sym "join", .sym "x", .sym "y"])
      [("x", .quoted [.sym "a"])], env, []⟩ := ⟨2, rfl⟩
  exact ⟨_, rfl, evaluate_canonical_idempotent hn hb hr⟩

end Value

end Lisplet
