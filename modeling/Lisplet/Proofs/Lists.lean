import Mathlib.Algebra.Order.Ring.Int
import Lisplet.Proofs.Fresh

/-! The list functions of the prelude. A body is evaluated over the frames of its caller, so what it
does is said of every environment that provides the globals, and a function that is handed on is
called where the formals of the function that calls it are visible as well. -/

namespace Lisplet

open Value Eval Prelude

namespace Value

/-- Values that are read as themselves and evaluate to themselves. -/
def isConstant : Value → Bool
  | .int _ | .float _ | .bool _ | .str _ => true
  | _ => false

def isTrue : Value → Bool
  | .bool b => b
  | _ => false

theorem proper_of_isConstant {v : Value} (h : v.isConstant) : v.Proper := by
  cases v with
  | int | float | bool | str => exact ⟨rfl, rfl⟩
  | _ => cases h

theorem yields_of_isConstant {v : Value} (h : v.isConstant) (env : Env) : v.Yields env v env := by
  cases v with
  | int | float | bool | str => exact yields_literal rfl
  | _ => cases h

theorem proper_int (n : Int64) : (int n).Proper := ⟨rfl, rfl⟩

theorem proper_quoted (cells : List Value) : (quoted cells).Proper := ⟨rfl, rfl⟩

theorem equal_quoted_nil (cells : List Value) : (quoted cells).equal (quoted []) = cells.isEmpty := by
  cases cells <;> simp [quoted, equal, cells?, equalAll]

end Value

/-- What the body of a function sees: its arguments, and otherwise what its caller sees. -/
structure Env.Sees (env : Env) (formals : List Name) (args : List Value) (e : Env) : Prop where
  args : ∀ b ∈ formals.zip args, e.lookup b.1 = b.2
  other : ∀ name, name ∉ formals → e.get? name = env.get? name

theorem Env.sees_scope (env : Env) {formals : List Name} (hn : formals.Nodup) {args : List Value}
    (hl : args.length = formals.length) :
    env.Sees formals args (env.enclose (Closure.scope formals [] args)) := by
  have hz : (formals.zip args).map Prod.fst = formals := List.map_fst_zip (by omega)
  constructor
  · intro b hb
    have hg : (Closure.scope formals [] args).get? b.1 = some b.2 :=
      Frame.get?_bindAll_of_mem (by rwa [hz]) hb []
    rw [lookup_enclose, hg, Option.getD_some]
  · intro name hm
    have hg : (Closure.scope formals [] args).get? name = none :=
      Frame.get?_bindAll_of_not_mem (by rwa [hz]) []
    rw [get?_enclose, hg, Option.none_or]

theorem Value.yields_call {env : Env} {name : Name} {head v : Value} {args vs : List Value}
    (hl : env.lookup name = head) (hne : args ≠ []) (ha : Runs args env vs env)
    (hc : Combines (head :: vs) env v env) : (call name args).Yields env v env :=
  (yields_list hne).mpr ⟨_, env, .next (yields_name hl) ha, hc⟩

/-- A call of a builtin that computes its result from its arguments. -/
theorem Value.yields_builtin {env : Env} {name : Name} {b : Builtin} {args vs : List Value} {v : Value}
    (hl : env.lookup name = .builtin b) (hne : args ≠ []) (ha : Runs args env vs env)
    (hp : ∀ v ∈ vs, v.Proper) (hc : b.arity.accepts vs.length = true)
    (hr : ∀ ev, b.operation.run ev vs = pure v) : (call name args).Yields env v env := by
  refine yields_call hl hne ha ((combines_builtin hp hc).mpr ?_)
  simp only [hr]
  exact ends_pure.mpr ⟨rfl, rfl⟩

theorem Value.yields_or {env : Env} {p q : Value} {a b : Bool} (hp : p.Yields env (.bool a) env)
    (hq : q.Yields env (.bool b) env) : (logic .or [p, q]).Yields env (.bool (a || b)) env := by
  cases a with
  | true => exact yields_logic_decided hp
  | false =>
    refine yields_logic_next hp nofun ?_
    cases b with
    | true => exact yields_logic_decided hq
    | false => exact yields_logic_next hq nofun yields_logic_nil

theorem Number.fit_toInt (name : Name) (n : Int64) : Number.fit name n.toInt = .ok (.int n) := by
  rw [Number.fit, if_pos ⟨n.minValue_le_toInt, n.toInt_le⟩, Int64.ofInt_toInt]

/-- An exact result that is in range is the result. -/
theorem Operation.compute_exact {op : Arithmetic} {onInts : Int → Int → Int}
    {onFloats : Float → Float → Float} (hop : Number.apply op = Number.exact op.name onInts onFloats)
    {a b c : Int64} (h : onInts a.toInt b.toInt = c.toInt) :
    (Operation.reduce op).compute [.int a, .int b] = .int c := by
  have hstep : Number.apply op (.int a) (.int b) = .ok (.int c) := by
    rw [hop, Number.exact, h, Number.fit_toInt]
  change Value.ofExcept ((Number.apply op (.int a) (.int b) >>= _) >>= _) = _
  rw [hstep]
  rfl

/-- The recursions that join what each cell contributes. -/
def Prelude.collecting (self formal : Name) (piece : Value) : Value :=
  .lambda [formal, "xs"]
    (.cond (call "empty" [.sym "xs"]) (.sym "nil")
      (call "join" [piece, call self [.sym formal, call "tail" [.sym "xs"]]])) []

namespace Env.Provides

variable {env : Env} {node : Value} {c : Value} {cells rest : List Value}

/-- All arguments of a function of the prelude are there. -/
theorem combines_function (h : env.Provides) {formals : List Name} {body : Value}
    {args : List Value} {v : Value} (hf : ∀ name ∈ formals, name ∈ locals) (hn : formals.Nodup)
    (hp : ∀ a ∈ args, a.Proper) (hl : args.length = formals.length)
    (hb : ∀ e, e.Provides → env.Sees formals args e → ∃ inner, body.Yields e v inner) :
    Combines (.lambda formals body [] :: args) env v env := by
  have he := env.sees_scope hn hl
  obtain ⟨inner, hv⟩ := hb _ (h.of_other hf he.other) he
  exact combines_body hp hl hv

theorem yields_operation (h : env.Provides) {b : Builtin} (hb : b ∈ Builtin.catalogue)
    {args vs : List Value} {v : Value} (hne : args ≠ []) (ha : Runs args env vs env)
    (hp : ∀ v ∈ vs, v.Proper) (hc : b.arity.accepts vs.length = true)
    (hr : ∀ ev, b.operation.run ev vs = pure v) : (call b.name args).Yields env v env :=
  yields_builtin (h.builtin hb) hne ha hp hc hr

theorem yields_tail (h : env.Provides) (hx : node.Yields env (.quoted (c :: rest)) env) :
    (call "tail" [node]).Yields env (.quoted rest) env :=
  h.yields_operation (b := ⟨"tail", .exactly 1, .tail⟩) (by decide) (by simp) (.next hx (.nil env))
    (by simp [proper_quoted]) rfl fun _ => rfl

theorem yields_head (h : env.Provides) (hx : node.Yields env (.quoted (c :: rest)) env) :
    (call "head" [node]).Yields env (.quoted [c]) env :=
  h.yields_operation (b := ⟨"head", .exactly 1, .head⟩) (by decide) (by simp) (.next hx (.nil env))
    (by simp [proper_quoted]) rfl fun _ => rfl

theorem yields_list (h : env.Provides) (hx : node.Yields env c env) (hc : c.Proper) :
    (call "list" [node]).Yields env (.quoted [c]) env :=
  h.yields_operation (b := ⟨"list", .atLeast 0, .list⟩) (by decide) (by simp) (.next hx (.nil env))
    (by simpa using hc) rfl fun _ => rfl

theorem yields_join (h : env.Provides) {nodes : List Value} {lists : List (List Value)}
    (hne : nodes ≠ []) (hx : Runs nodes env (lists.map .quoted) env) :
    (call "join" nodes).Yields env (.quoted lists.flatten) env := by
  have hj : (lists.map Value.quoted).flatMap Operation.spliced = lists.flatten := by
    rw [List.flatMap_map]
    exact List.flatMap_id
  have hl : 1 ≤ (lists.map Value.quoted).length := by
    rw [hx.length_eq]
    exact List.length_pos_iff.mpr hne
  refine h.yields_operation (b := ⟨"join", .atLeast 1, .join⟩) (by decide) hne hx ?_
    (decide_eq_true hl) fun _ => ?_
  · simp only [List.forall_mem_map]
    exact fun cells _ => proper_quoted cells
  · simp only [Operation.run, Operation.compute, hj]

theorem yields_empty (h : env.Provides) (hx : node.Yields env (.quoted cells) env) :
    (call "empty" [node]).Yields env (.bool cells.isEmpty) env := by
  have hempty : env.lookup "empty" = Prelude.empty := h.prelude (by simp [bindings])
  refine yields_call hempty (by simp) (.next hx (.nil env)) ?_
  refine h.combines_function (by decide) (by simp) (by simp [proper_quoted]) rfl ?_
  intro e he hs
  have hxs : e.lookup "xs" = .quoted cells := hs.args ("xs", .quoted cells) (by simp)
  have hnil : e.lookup "nil" = .quoted [] := he.prelude (by simp [bindings])
  have ha : Runs [.sym "xs", .sym "nil"] e [.quoted cells, .quoted []] e :=
    .next (yields_name hxs) (.next (yields_name hnil) (.nil e))
  rw [← equal_quoted_nil]
  exact ⟨e, he.yields_operation (b := ⟨"==", .exactly 2, .equal⟩) (by decide) (by simp) ha
    (by simp [proper_quoted]) rfl fun _ => rfl⟩

/-- The first cell is evaluated once more, which a constant survives. -/
theorem yields_fst (h : env.Provides) (hx : node.Yields env (.quoted (c :: rest)) env)
    (hc : c.isConstant) : (call "fst" [node]).Yields env c env := by
  have hfst : env.lookup "fst" = Prelude.fst := h.prelude (by simp [bindings])
  refine yields_call hfst (by simp) (.next hx (.nil env)) ?_
  refine h.combines_function (by decide) (by simp) (by simp [proper_quoted]) rfl ?_
  intro e he hs
  have hxs : e.lookup "xs" = .quoted (c :: rest) := hs.args ("xs", .quoted (c :: rest)) (by simp)
  have heval := he.builtin (b := ⟨"eval", .exactly 1, .eval⟩) (by decide)
  have hhead : (call "head" [.sym "xs"]).Yields e (.quoted [c]) e := he.yields_head (yields_name hxs)
  have hb : ∀ b, c ≠ .builtin b := by
    intro b hb
    cases hb ▸ hc
  have hv : (expr .plain [c]).Yields e c e :=
    (yields_alone (yields_of_isConstant hc e) hb).mpr ⟨rfl, rfl⟩
  exact ⟨e, yields_call heval (by simp) (.next hhead (.nil e))
    ((combines_builtin (by simp [proper_quoted]) rfl).mpr hv)⟩

/-- Each call adds one, so the sum has to be in range. -/
theorem combines_len (h : env.Provides) {n : Int64} (hn : n.toInt = cells.length) :
    Combines [len, .quoted cells] env (.int n) env := by
  induction cells generalizing env n with
  | nil =>
    obtain rfl : n = 0 := Int64.toInt_inj.mp hn
    refine h.combines_function (by decide) (by simp) (by simp [proper_quoted]) rfl ?_
    intro e he hs
    have hxs : e.lookup "xs" = .quoted [] := hs.args ("xs", .quoted []) (by simp)
    exact ⟨e, yields_cond (he.yields_empty (yields_name hxs)) (yields_literal rfl)⟩
  | cons c rest ih =>
    have hlt : n.toInt < 2 ^ 63 := n.toInt_lt
    have hlen : ((c :: rest).length : Int) = 1 + rest.length := by
      rw [List.length_cons]
      omega
    obtain ⟨m, hm⟩ : ∃ m : Int64, m.toInt = rest.length :=
      ⟨.ofInt rest.length, Int64.toInt_ofInt_of_le (by omega) (by omega)⟩
    have hsum : (Operation.reduce .add).compute [.int 1, .int m] = .int n := by
      refine Operation.compute_exact rfl ?_
      change 1 + m.toInt = n.toInt
      rw [hm, hn, hlen]
    refine h.combines_function (by decide) (by simp) (by simp [proper_quoted]) rfl ?_
    intro e he hs
    have hxs : (sym "xs").Yields e (.quoted (c :: rest)) e :=
      yields_name (hs.args ("xs", .quoted (c :: rest)) (by simp))
    have hlen' : e.lookup "len" = Prelude.len := he.prelude (by simp [bindings])
    have hrest : (call "len" [call "tail" [.sym "xs"]]).Yields e (.int m) e :=
      yields_call hlen' (by simp) (.next (he.yields_tail hxs) (.nil e)) (ih he hm)
    have hadd : (call "+" [.int 1, call "len" [call "tail" [.sym "xs"]]]).Yields e (.int n) e := by
      rw [← hsum]
      exact he.yields_operation (b := .ofArithmetic .add) (by decide) (by simp)
        (.next (yields_literal rfl) (.next hrest (.nil e))) (by simp [proper_int]) rfl fun _ => rfl
    exact ⟨e, yields_cond (he.yields_empty hxs) hadd⟩

/-- When `drop` stops. -/
theorem yields_dropped (h : env.Provides) {k : Int64} (hn : env.lookup "n" = .int k)
    (hx : env.lookup "xs" = .quoted cells) :
    (logic .or [call "<=" [.sym "n", .int 0], call "empty" [.sym "xs"]]).Yields env
      (.bool (decide (k.toInt ≤ 0) || cells.isEmpty)) env := by
  have hle : Comparison.le.between k 0 = decide (k.toInt ≤ 0) := by
    have hlt : (0 : Int64) < k ↔ 0 < k.toInt := Int64.lt_iff_toInt_lt
    simp only [Comparison.between, hlt, ← decide_not, Int.not_lt]
  have hcompare : (call "<=" [.sym "n", .int 0]).Yields env (.bool (decide (k.toInt ≤ 0))) env := by
    rw [← hle]
    exact h.yields_operation (b := .ofComparison .le) (by decide) (by simp)
      (.next (yields_name hn) (.next (yields_literal rfl) (.nil env))) (by simp [proper_int]) rfl
      fun _ => rfl
  exact yields_or hcompare (h.yields_empty (yields_name hx))

theorem combines_drop (h : env.Provides) (k : Int64) :
    Combines [drop, .int k, .quoted cells] env (.quoted (cells.drop k.toInt.toNat)) env := by
  induction cells generalizing env k with
  | nil =>
    refine h.combines_function (by decide) (by simp) (by simp [proper_int, proper_quoted]) rfl ?_
    intro e he hs
    have hn : e.lookup "n" = .int k := hs.args ("n", .int k) (by simp)
    have hxs : e.lookup "xs" = .quoted [] := hs.args ("xs", .quoted []) (by simp)
    have hstop := he.yields_dropped hn hxs
    rw [List.isEmpty_nil, Bool.or_true] at hstop
    rw [List.drop_nil]
    exact ⟨e, yields_cond hstop (yields_name hxs)⟩
  | cons c rest ih =>
    refine h.combines_function (by decide) (by simp) (by simp [proper_int, proper_quoted]) rfl ?_
    intro e he hs
    have hn : e.lookup "n" = .int k := hs.args ("n", .int k) (by simp)
    have hxs : e.lookup "xs" = .quoted (c :: rest) := hs.args ("xs", .quoted (c :: rest)) (by simp)
    have hstop := he.yields_dropped hn hxs
    rw [List.isEmpty_cons, Bool.or_false] at hstop
    refine ⟨e, yields_cond hstop ?_⟩
    by_cases hk : k.toInt ≤ 0
    · rw [if_pos (decide_eq_true hk), Int.toNat_of_nonpos hk]
      exact yields_name hxs
    · have hlt : k.toInt < 2 ^ 63 := k.toInt_lt
      obtain ⟨m, hm⟩ : ∃ m : Int64, m.toInt = k.toInt - 1 :=
        ⟨.ofInt (k.toInt - 1), Int64.toInt_ofInt_of_le (by omega) (by omega)⟩
      have hsub : (Operation.reduce .sub).compute [.int k, .int 1] = .int m :=
        Operation.compute_exact rfl hm.symm
      have hfewer : (call "-" [.sym "n", .int 1]).Yields e (.int m) e := by
        rw [← hsub]
        exact he.yields_operation (b := .ofArithmetic .sub) (by decide) (by simp)
          (.next (yields_name hn) (.next (yields_literal rfl) (.nil e))) (by simp [proper_int]) rfl
          fun _ => rfl
      have hdrop : e.lookup "drop" = Prelude.drop := he.prelude (by simp [bindings])
      have hcount : k.toInt.toNat = m.toInt.toNat + 1 := by omega
      rw [if_neg (by simpa using hk), hcount, List.drop_succ_cons]
      exact yields_call hdrop (by simp)
        (.next hfewer (.next (he.yields_tail (yields_name hxs)) (.nil e))) (ih he m)

/-- Recursions that collect their result see the cells one after another. What a cell contributes may
depend on all that the caller sees, however deep the recursion is. -/
theorem combines_collecting (h : env.Provides) {self formal : Name} {piece f : Value}
    {part : Value → List Value} (hself : (self, collecting self formal piece) ∈ bindings)
    (hformal : formal ∈ locals) (hne : formal ≠ "xs") (hf : f.Proper)
    (hp : ∀ e, e.Provides → (∀ name, name ∉ [formal, "xs"] → e.get? name = env.get? name) →
      e.lookup formal = f → ∀ c ∈ cells, ∀ rest, e.lookup "xs" = .quoted (c :: rest) →
      piece.Yields e (.quoted (part c)) e) :
    Combines [collecting self formal piece, f, .quoted cells] env
      (.quoted (cells.flatMap part)) env := by
  have hlocal : ∀ name ∈ [formal, "xs"], name ∈ locals := by
    simp only [List.forall_mem_cons]
    exact ⟨hformal, by decide, List.forall_mem_nil _⟩
  have hnodup : [formal, "xs"].Nodup := by simpa using hne
  induction cells generalizing env with
  | nil =>
    refine h.combines_function hlocal hnodup (by simp [hf, proper_quoted]) rfl ?_
    intro e he hs
    have hxs : e.lookup "xs" = .quoted [] := hs.args ("xs", .quoted []) (by simp)
    have hnil : e.lookup "nil" = .quoted [] := he.prelude (by simp [bindings])
    exact ⟨e, yields_cond (he.yields_empty (yields_name hxs)) (yields_name hnil)⟩
  | cons c rest ih =>
    refine h.combines_function hlocal hnodup (by simp [hf, proper_quoted]) rfl ?_
    intro e he hs
    have hf' : e.lookup formal = f := hs.args (formal, f) (by simp)
    have hxs : e.lookup "xs" = .quoted (c :: rest) := hs.args ("xs", .quoted (c :: rest)) (by simp)
    have hpiece : piece.Yields e (.quoted (part c)) e :=
      hp e he hs.other hf' c List.mem_cons_self rest hxs
    -- The rest is taken in the frame of this call, where the same names are bound again.
    have hrest : Combines [collecting self formal piece, f, .quoted rest] e
        (.quoted (rest.flatMap part)) e := by
      refine ih he ?_
      intro e' he' hother hf'' c' hc'
      refine hp e' he' ?_ hf'' c' (List.mem_cons_of_mem c hc')
      intro name hname
      rw [hother name hname, hs.other name hname]
    have hagain : (call self [.sym formal, call "tail" [.sym "xs"]]).Yields e
        (.quoted (rest.flatMap part)) e :=
      yields_call (he.prelude hself) (by simp)
        (.next (yields_name hf') (.next (he.yields_tail (yields_name hxs)) (.nil e))) hrest
    have hjoin : (call "join" _).Yields e (.quoted [part c, rest.flatMap part].flatten) e :=
      he.yields_join (by simp) (.next hpiece (.next hagain (.nil e)))
    refine ⟨e, yields_cond (he.yields_empty (yields_name hxs)) ?_⟩
    simpa using hjoin

/-- The predicate is called from the body of `filter`, however deep the recursion is. -/
theorem combines_filter (h : env.Provides) {p : Value} (hp : p.Proper) {test : Value → Bool}
    (hc : ∀ c ∈ cells, c.isConstant)
    (ht : ∀ e, (∀ name, name ∉ ["p", "xs"] → e.get? name = env.get? name) →
      ∀ c ∈ cells, Combines [p, c] e (.bool (test c)) e) :
    Combines [filter, p, .quoted cells] env (.quoted (cells.filter test)) env := by
  have hkept : cells.filter test = cells.flatMap fun c => [c].filter test := by
    rw [← List.filter_flatMap, List.flatMap_singleton']
  have hself : ("filter", filter) ∈ bindings := by simp [bindings]
  rw [hkept]
  refine h.combines_collecting hself (by decide) (by decide) hp ?_
  intro e he hother hp' c hm rest hxs
  have hnil : e.lookup "nil" = .quoted [] := he.prelude (by simp [bindings])
  have hfst := he.yields_fst (yields_name hxs) (hc c hm)
  have htest : (call "p" [call "fst" [.sym "xs"]]).Yields e (.bool (test c)) e :=
    yields_call hp' (by simp) (.next hfst (.nil e)) (ht e hother c hm)
  refine yields_cond htest ?_
  cases hb : test c with
  | true => simpa [hb] using he.yields_list hfst (proper_of_isConstant (hc c hm))
  | false => simpa [hb] using yields_name hnil

/-- The function is called from the body of `map`, however deep the recursion is. -/
theorem combines_map (h : env.Provides) {f : Value} (hf : f.Proper) {r : Value → Value}
    (hc : ∀ c ∈ cells, c.isConstant) (hr : ∀ c ∈ cells, (r c).Proper)
    (ht : ∀ e, (∀ name, name ∉ ["f", "xs"] → e.get? name = env.get? name) →
      ∀ c ∈ cells, Combines [f, c] e (r c) e) :
    Combines [map, f, .quoted cells] env (.quoted (cells.map r)) env := by
  have hself : ("map", map) ∈ bindings := by simp [bindings]
  rw [List.map_eq_flatMap]
  refine h.combines_collecting hself (by decide) (by decide) hf ?_
  intro e he hother hf' c hm rest hxs
  have hfst := he.yields_fst (yields_name hxs) (hc c hm)
  have hcall : (call "f" [call "fst" [.sym "xs"]]).Yields e (r c) e :=
    yields_call hf' (by simp) (.next hfst (.nil e)) (ht e hother c hm)
  exact he.yields_list hcall (hr c hm)

theorem yields_len (h : env.Provides) (hl : cells.length < 2 ^ 63) :
    ∃ n : Int64, n.toInt = cells.length ∧ (call "len" [.quoted cells]).Yields env (.int n) env := by
  have hlen : env.lookup "len" = Prelude.len := h.prelude (by simp [bindings])
  have hn : (Int64.ofInt cells.length).toInt = cells.length :=
    Int64.toInt_ofInt_of_le (by omega) (by omega)
  exact ⟨_, hn, yields_call hlen (by simp) (.next (yields_literal rfl) (.nil env)) (h.combines_len hn)⟩

theorem yields_drop (h : env.Provides) (k : Int64) : (call "drop" [.int k, .quoted cells]).Yields env
    (.quoted (cells.drop (max 0 (min k.toInt cells.length)).toNat)) env := by
  have hdrop : env.lookup "drop" = Prelude.drop := h.prelude (by simp [bindings])
  have hk : cells.drop (max 0 (min k.toInt cells.length)).toNat = cells.drop k.toInt.toNat := by
    rcases Int.le_total k.toInt cells.length with hle | hge
    · congr 1
      omega
    · rw [List.drop_eq_nil_of_le (by omega), List.drop_eq_nil_of_le (by omega)]
  rw [hk]
  exact yields_call hdrop (by simp)
    (.next (yields_literal rfl) (.next (yields_literal rfl) (.nil env))) (h.combines_drop k)

end Env.Provides

/-- Applied to any of the cells the closure does `r`, wherever the prelude may call it. -/
def Closure.Realizes (formals : List Name) (body : Value) (captured : Frame) (r : Value → Value)
    (cells : List Value) (env : Env) : Prop :=
  ∀ c ∈ cells, ∀ e : Env, (∀ m, m ∉ ["f", "p", "xs"] → e.get? m = env.get? m) →
    Applies formals body captured [c] e (r c) e

section

variable {env : Env} {cells : List Value} {name : Name} {formals : List Name} {body : Value}
  {captured : Frame} {r : Value → Value}

theorem Closure.Realizes.combines (hr : Realizes formals body captured r cells env)
    (hc : ∀ c ∈ cells, c.isConstant) {names : List Name} (hn : names ⊆ ["f", "p", "xs"]) {e : Env}
    (he : ∀ m, m ∉ names → e.get? m = env.get? m) {c : Value} (hm : c ∈ cells) :
    Combines [.lambda formals body captured, c] e (r c) e := by
  have hcp := proper_of_isConstant (hc c hm)
  have hf : firstFault? [c] = none := firstFault?_eq_none.mpr (by simpa using hcp.1)
  refine (combines_closure (by simpa using hcp.2) hf).mpr (hr c hm e ?_)
  exact fun m hm => he m (mt (@hn m) hm)

theorem Value.runs_given (hg : env.lookup name = .lambda formals body captured) :
    Runs [.sym name, .quoted cells] env [.lambda formals body captured, .quoted cells] env :=
  .next (yields_name hg) (.next (yields_literal rfl) (.nil env))

namespace Env.Provides

theorem yields_map (h : env.Provides) (hg : env.lookup name = .lambda formals body captured)
    (hr : Closure.Realizes formals body captured r cells env) (hc : ∀ c ∈ cells, c.isConstant)
    (hp : ∀ c ∈ cells, (r c).Proper) :
    (call "map" [.sym name, .quoted cells]).Yields env (.quoted (cells.map r)) env := by
  have hmap : env.lookup "map" = Prelude.map := h.prelude (by simp [bindings])
  refine yields_call hmap (by simp) (runs_given hg) (h.combines_map ⟨rfl, rfl⟩ hc hp ?_)
  intro e he c hm
  exact hr.combines hc (by simp) he hm

theorem yields_filter (h : env.Provides) (hg : env.lookup name = .lambda formals body captured)
    (hr : Closure.Realizes formals body captured r cells env) (hc : ∀ c ∈ cells, c.isConstant)
    (hb : ∀ c ∈ cells, ∃ b, r c = .bool b) :
    (call "filter" [.sym name, .quoted cells]).Yields env
      (.quoted (cells.filter fun c => (r c).isTrue)) env := by
  have hfilter : env.lookup "filter" = Prelude.filter := h.prelude (by simp [bindings])
  refine yields_call hfilter (by simp) (runs_given hg) (h.combines_filter ⟨rfl, rfl⟩ hc ?_)
  intro e he c hm
  have htest := hr.combines hc (by simp) he hm
  obtain ⟨b, hb⟩ := hb c hm
  rw [hb] at htest ⊢
  exact htest

end Env.Provides

end

/-- A fresh session to which a host has added a binding. -/
def Session.startWith (context : Context) (name : Name) (value : Value) : Env :=
  (start context).1.bind name value

theorem Session.startWith_provides (context : Context) {name : Name} (value : Value)
    (hn : name ∉ vocabulary.map Prod.fst) : (startWith context name value).Provides := by
  refine (start_provides context).congr fun b hb => ?_
  have hne : b.1 ≠ name := by
    rintro rfl
    exact hn (List.mem_map_of_mem hb)
  rw [startWith, Env.get?_bind, if_neg hne]

/-- In a fresh session `len` and `drop` do what they say on any list. With a closure added to it that
does `r` to each cell, `map` and `filter` do with `r` what the functions on lists of these names do.
None of them changes the session. -/
theorem Session.list_functions_agree (context : Context) (cells : List Value) :
    (cells.length < 2 ^ 63 → ∃ n : Int64, n.toInt = cells.length ∧
      (call "len" [.quoted cells]).Yields (start context).1 (.int n) (start context).1) ∧
    (∀ k : Int64, (call "drop" [.int k, .quoted cells]).Yields (start context).1
      (.quoted (cells.drop (max 0 (min k.toInt cells.length)).toNat)) (start context).1) ∧
    ∀ (name formal : Name) (body : Value) (captured : Frame) (r : Value → Value) (env : Env),
      name ∉ vocabulary.map Prod.fst →
      env = startWith context name (.lambda [formal] body captured) →
      (∀ c ∈ cells, c.isConstant) → Closure.Realizes [formal] body captured r cells env →
      ((∀ c ∈ cells, (r c).Proper) →
        (call "map" [.sym name, .quoted cells]).Yields env (.quoted (cells.map r)) env) ∧
      ((∀ c ∈ cells, ∃ b, r c = .bool b) →
        (call "filter" [.sym name, .quoted cells]).Yields env
          (.quoted (cells.filter fun c => (r c).isTrue)) env) := by
  have h := start_provides context
  refine ⟨h.yields_len, h.yields_drop, ?_⟩
  intro name formal body captured r env hname henv hc hr
  have hp : env.Provides := henv ▸ startWith_provides context _ hname
  have hg : env.lookup name = .lambda [formal] body captured := by
    rw [henv, startWith, Env.lookup_bind, if_pos rfl]
  exact ⟨hp.yields_map hg hr hc, hp.yields_filter hg hr hc⟩

/-- The test that a comparison with a pivot makes. -/
def Comparison.holds (op : Comparison) (pivot : Int64) : Value → Bool
  | .int m => op.between m pivot
  | _ => false

/-- A comparison that finds the builtin it needs where `map` and `filter` call it. -/
theorem Session.list_functions_agree_below : ∃ fresh env : Env, fresh = (start .default).1 ∧
    env = startWith .default "below" (.lambda ["x"] (call "<" [.sym "x", .int 4]) []) ∧
    (∃ n : Int64, n.toInt = 3 ∧
      (call "len" [.quoted [.int 1, .int 5, .int 3]]).Yields fresh (.int n) fresh) ∧
    (call "drop" [.int 2, .quoted [.int 1, .int 5, .int 3]]).Yields fresh (.quoted [.int 3]) fresh ∧
    (call "map" [.sym "below", .quoted [.int 1, .int 5, .int 3]]).Yields env
      (.quoted [.bool true, .bool false, .bool true]) env ∧
    (call "filter" [.sym "below", .quoted [.int 1, .int 5, .int 3]]).Yields env
      (.quoted [.int 1, .int 3]) env := by
  have hname : "below" ∉ vocabulary.map Prod.fst := by decide +kernel
  refine ⟨_, _, rfl, rfl, ?_⟩
  generalize henv : startWith .default "below" (.lambda ["x"] (call "<" [.sym "x", .int 4]) []) = env
  have hp : env.Provides := henv ▸ startWith_provides .default _ hname
  have hr : Closure.Realizes ["x"] (call "<" [.sym "x", .int 4]) []
      (fun c => .bool (Comparison.lt.holds 4 c)) [.int 1, .int 5, .int 3] env := by
    intro c hc e he
    obtain ⟨m, rfl⟩ : ∃ m, c = .int m := by
      simp only [List.mem_cons, List.not_mem_nil, or_false] at hc
      rcases hc with rfl | rfl | rfl <;> exact ⟨_, rfl⟩
    refine (combines_closure (by simp [isNothing]) rfl).mp ?_
    refine (hp.of_other (by decide) he).combines_function (by decide) (by simp) (by simp [proper_int])
      rfl ?_
    intro e' he' hs
    have hx : e'.lookup "x" = .int m := hs.args ("x", .int m) (by simp)
    exact ⟨e', he'.yields_operation (b := .ofComparison .lt) (by decide) (by simp)
      (.next (yields_name hx) (.next (yields_literal rfl) (.nil e'))) (by simp [proper_int]) rfl
      fun _ => rfl⟩
  obtain ⟨hlen, hdrop, hagree⟩ := list_functions_agree .default [.int 1, .int 5, .int 3]
  have hboth := hagree "below" "x" _ _ _ env hname henv.symm (by simp [isConstant]) hr
  exact ⟨hlen (by decide), hdrop 2, hboth.1 fun c _ => ⟨rfl, rfl⟩, hboth.2 fun c _ => ⟨_, rfl⟩⟩

end Lisplet
