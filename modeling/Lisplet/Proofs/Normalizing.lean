import Lisplet.Proofs.Discipline
import Lisplet.Proofs.Equality

/-! Normal forms for equality. Lists that are reached from the outside through lists alone are equal
whatever their quoting and whether they are expressions or sequences; under any other constructor only
the quoting is ignored. The normal form of a value keeps what equality looks at, so on values without
doubles equality is equality of normal forms. -/

namespace Lisplet

/-- What equality looks at. A builtin is known by its name and arity. -/
inductive Normal where
  | int (n : Int64)
  | float (x : Float)
  | bool (b : Bool)
  | str (s : String)
  | sym (name : Name)
  /-- A list of any kind that is reached through lists. -/
  | list (cells : List Normal)
  /-- An expression under another constructor, in any quoting. -/
  | expr (cells : List Normal)
  | lambda (formals : List Name) (body : Normal) (captured : List (Name × Normal))
  | define (name : Name) (value : Normal)
  | cond (clause yes no : Normal)
  | logic (op : Connective) (operands : List Normal)
  | builtin (name : Name) (arity : Arity)
  | seq (items : List Normal)
  | error (fault : Fault)
  | nothing

namespace Normal

mutual

/-- A value that has this form. -/
def value : Normal → Value
  | .int n => .int n
  | .float x => .float x
  | .bool b => .bool b
  | .str s => .str s
  | .sym name => .sym name
  | .list cells | .expr cells => .expr .plain (values cells)
  | .lambda formals body captured => .lambda formals body.value (bindings captured)
  | .define name v => .define name v.value
  | .cond clause yes no => .cond clause.value yes.value no.value
  | .logic op operands => .logic op (values operands)
  | .builtin name arity => .builtin ⟨name, arity, .count⟩
  | .seq items => .seq (values items)
  | .error fault => .error fault
  | .nothing => .nothing

def values : List Normal → List Value
  | [] => []
  | n :: rest => n.value :: values rest

def bindings : List (Name × Normal) → List (Name × Value)
  | [] => []
  | (name, n) :: rest => (name, n.value) :: bindings rest

end

end Normal

namespace Value

mutual

/-- The value with its quoting forgotten at every depth. -/
def bare : Value → Normal
  | .int n => .int n
  | .float x => .float x
  | .bool b => .bool b
  | .str s => .str s
  | .sym name => .sym name
  | .expr _ cells => .expr (bareAll cells)
  | .lambda formals body captured => .lambda formals body.bare (bareBindings captured)
  | .define name value => .define name value.bare
  | .cond clause yes no => .cond clause.bare yes.bare no.bare
  | .logic op operands => .logic op (bareAll operands)
  | .builtin b => .builtin b.name b.arity
  | .seq items => .seq (bareAll items)
  | .error fault => .error fault
  | .nothing => .nothing

def bareAll : List Value → List Normal
  | [] => []
  | v :: rest => v.bare :: bareAll rest

def bareBindings : List (Name × Value) → List (Name × Normal)
  | [] => []
  | (name, v) :: rest => (name, v.bare) :: bareBindings rest

end

mutual

/-- The normal form: lists are lists, down to the first value that is none. -/
def norm : Value → Normal
  | .expr _ cells => .list (normAll cells)
  | .seq items => .list (normAll items)
  | v => v.bare

def normAll : List Value → List Normal
  | [] => []
  | v :: rest => v.norm :: normAll rest

end

def NotFloat : Value → Prop
  | .float _ => False
  | _ => True

/-- No double occurs in it, at any depth. -/
def FloatFree (v : Value) : Prop := v.Everywhere NotFloat

mutual

theorem bare_eq_of_same {a b : Value} (hf : a.FloatFree) (h : a.same b = true) :
    a.bare = b.bare := by
  cases same_iff_alike.mp h with
  | int | bool | str | sym | error | nothing => rfl
  | float _ => exact hf.here.elim
  | expr mode mode' hc => rw [bare, bare, bareAll_eq_of_same (everywhere_expr.mp hf).2 hc]
  | lambda formals hb hc =>
    obtain ⟨-, hbody, hcaptured⟩ := everywhere_lambda.mp hf
    rw [bare, bare, bare_eq_of_same hbody hb, bareBindings_eq_of_same hcaptured hc]
  | define name hv => rw [bare, bare, bare_eq_of_same (everywhere_define.mp hf).2 hv]
  | cond hc hy hn =>
    obtain ⟨-, hclause, hyes, hno⟩ := everywhere_cond.mp hf
    rw [bare, bare, bare_eq_of_same hclause hc, bare_eq_of_same hyes hy, bare_eq_of_same hno hn]
  | logic op ho => rw [bare, bare, bareAll_eq_of_same (everywhere_logic.mp hf).2 ho]
  | builtin hn ha => rw [bare, bare, hn, ha]
  | seq hi => rw [bare, bare, bareAll_eq_of_same (everywhere_seq.mp hf).2 hi]
termination_by structural a

theorem bareAll_eq_of_same {xs ys : List Value} (hf : ∀ x ∈ xs, x.FloatFree)
    (h : sameAll xs ys = true) : bareAll xs = bareAll ys := by
  match xs, ys, hf, h with
  | [], [], _, _ => rfl
  | x :: xs, y :: ys, hf, h =>
    obtain ⟨hx, hr⟩ := List.forall_mem_cons.mp hf
    obtain ⟨hxy, hs⟩ := Bool.and_eq_true_iff.mp h
    rw [bareAll, bareAll, bare_eq_of_same hx hxy, bareAll_eq_of_same hr hs]
termination_by structural xs

theorem bareBindings_eq_of_same {xs ys : List (Name × Value)} (hf : ∀ b ∈ xs, b.2.FloatFree)
    (h : sameBindings xs ys = true) : bareBindings xs = bareBindings ys := by
  match xs, ys, hf, h with
  | [], [], _, _ => rfl
  | (m, v) :: xs, (n, w) :: ys, hf, h =>
    obtain ⟨hv, hr⟩ := List.forall_mem_cons.mp hf
    simp only [sameBindings, Bool.and_eq_true, beq_iff_eq] at h
    rw [bareBindings, bareBindings, h.1.1, bare_eq_of_same hv h.1.2, bareBindings_eq_of_same hr h.2]
termination_by structural xs

end

mutual

/-- A value looks like what is made anew from its bare form. -/
theorem same_value_bare {v : Value} (hf : v.FloatFree) : v.same v.bare.value = true := by
  rw [same_iff_alike]
  cases v with
  | int n => exact .int n
  | float x => exact hf.here.elim
  | bool b => exact .bool b
  | str s => exact .str s
  | sym name => exact .sym name
  | expr mode cells => exact .expr mode .plain (sameAll_values_bare (everywhere_expr.mp hf).2)
  | lambda formals body captured =>
    obtain ⟨-, hb, hc⟩ := everywhere_lambda.mp hf
    exact .lambda formals (same_value_bare hb) (sameBindings_values_bare hc)
  | define name value => exact .define name (same_value_bare (everywhere_define.mp hf).2)
  | cond clause yes no =>
    obtain ⟨-, hc, hy, hn⟩ := everywhere_cond.mp hf
    exact .cond (same_value_bare hc) (same_value_bare hy) (same_value_bare hn)
  | logic op operands => exact .logic op (sameAll_values_bare (everywhere_logic.mp hf).2)
  | builtin b => exact .builtin rfl rfl
  | seq items => exact .seq (sameAll_values_bare (everywhere_seq.mp hf).2)
  | error fault => exact .error fault
  | nothing => exact .nothing
termination_by structural v

theorem sameAll_values_bare {vs : List Value} (hf : ∀ v ∈ vs, v.FloatFree) :
    sameAll vs (Normal.values (bareAll vs)) = true := by
  match vs, hf with
  | [], _ => rfl
  | v :: rest, hf =>
    obtain ⟨hv, hr⟩ := List.forall_mem_cons.mp hf
    rw [bareAll, Normal.values, sameAll, same_value_bare hv, sameAll_values_bare hr, Bool.and_self]
termination_by structural vs

theorem sameBindings_values_bare {bs : List (Name × Value)} (hf : ∀ b ∈ bs, b.2.FloatFree) :
    sameBindings bs (Normal.bindings (bareBindings bs)) = true := by
  match bs, hf with
  | [], _ => rfl
  | (name, v) :: rest, hf =>
    obtain ⟨hv, hr⟩ := List.forall_mem_cons.mp hf
    simp [bareBindings, Normal.bindings, sameBindings, same_value_bare hv,
      sameBindings_values_bare hr]
termination_by structural bs

end

theorem same_iff_bare {a b : Value} (ha : a.FloatFree) (hb : b.FloatFree) :
    a.same b = true ↔ a.bare = b.bare := by
  constructor
  · exact bare_eq_of_same ha
  · intro h
    have hv := same_value_bare ha
    rw [h] at hv
    exact same_trans hv (same_symm (same_value_bare hb))

theorem normAll_eq_map (vs : List Value) : normAll vs = vs.map norm := by
  induction vs with
  | nil => rfl
  | cons v rest ih => rw [normAll, ih, List.map_cons]

theorem norm_of_cells {v : Value} {cells : List Value} (h : v.cells? = some cells) :
    v.norm = .list (cells.map norm) := by
  cases v with
  | expr mode xs | seq xs =>
    cases h
    rw [norm, normAll_eq_map]
  | _ => cases h

theorem norm_of_atom {v : Value} (h : v.cells? = none) : v.norm = v.bare := by
  cases v with
  | expr mode xs | seq xs => cases h
  | _ => rfl

theorem bare_ne_list (v : Value) (cells : List Normal) : v.bare ≠ .list cells := by
  intro h
  cases v <;> cases h

/-- Without doubles there is nothing to convert. -/
theorem agrees_iff_same {a b : Value} (ha : a.FloatFree) (hb : b.FloatFree) :
    a.agrees b = true ↔ a.same b = true := by
  constructor
  · intro h
    rcases agrees_cases h with h | ⟨m, y, rfl, rfl, h⟩ | ⟨x, n, rfl, rfl, h⟩
    · exact same_iff_alike.mpr h
    · exact hb.here.elim
    · exact ha.here.elim
  · exact agrees_of_same

theorem equalAll_iff_map {xs ys : List Value}
    (h : ∀ x ∈ xs, ∀ y ∈ ys, x.equal y = true ↔ x.norm = y.norm) :
    equalAll xs ys = true ↔ xs.map norm = ys.map norm := by
  induction xs generalizing ys with
  | nil => cases ys <;> simp [equalAll]
  | cons x xs ih =>
    cases ys with
    | nil => simp [equalAll]
    | cons y ys =>
      have hr : ∀ u ∈ xs, ∀ w ∈ ys, u.equal w = true ↔ u.norm = w.norm :=
        fun u hu w hw => h u (List.mem_cons_of_mem x hu) w (List.mem_cons_of_mem y hw)
      rw [equalAll, Bool.and_eq_true, h x List.mem_cons_self y List.mem_cons_self, ih hr,
        List.map_cons, List.map_cons, List.cons.injEq]

theorem equal_iff_norm {a b : Value} (ha : a.FloatFree) (hb : b.FloatFree) :
    a.equal b = true ↔ a.norm = b.norm := by
  induction a using cells_induction generalizing b with
  | step a ih =>
    rw [equal_eq]
    cases hxs : a.cells? with
    | some xs =>
      rw [norm_of_cells hxs]
      cases hys : b.cells? with
      | some ys =>
        rw [norm_of_cells hys, Normal.list.injEq]
        exact equalAll_iff_map fun x hx y hy => ih xs hxs x hx (ha.cells hxs x hx) (hb.cells hys y hy)
      | none =>
        rw [norm_of_atom hys]
        exact iff_of_false nofun (bare_ne_list b _).symm
    | none =>
      rw [norm_of_atom hxs]
      cases hys : b.cells? with
      | some ys =>
        rw [norm_of_cells hys]
        exact iff_of_false nofun (bare_ne_list a _)
      | none =>
        rw [norm_of_atom hys, ← same_iff_bare ha hb]
        exact agrees_iff_same ha hb

theorem equal_error (fault : Fault) : (error fault).equal (.error fault) = true :=
  beq_self_eq_true fault

theorem equalAll_append {xs ys xs' ys' : List Value} (h : equalAll xs ys = true)
    (h' : equalAll xs' ys' = true) : equalAll (xs ++ xs') (ys ++ ys') = true := by
  match xs, ys, h with
  | [], [], _ => exact h'
  | x :: xs, y :: ys, h =>
    obtain ⟨hxy, hr⟩ := Bool.and_eq_true_iff.mp h
    rw [List.cons_append, List.cons_append, equalAll, hxy, equalAll_append hr h', Bool.and_self]

/-- Equal lists have equal cells. -/
theorem exists_cells_of_equal {a b : Value} (ha : a.cells?.isSome) (h : a.equal b = true) :
    ∃ xs ys, a.cells? = some xs ∧ b.cells? = some ys ∧ equalAll xs ys = true := by
  obtain ⟨xs, hxs⟩ := Option.isSome_iff_exists.mp ha
  rw [equal_eq, hxs] at h
  cases hys : b.cells? with
  | none =>
    rw [hys] at h
    cases h
  | some ys =>
    rw [hys] at h
    exact ⟨xs, ys, hxs, rfl, h⟩

end Value

open Value

namespace Operation

theorem equalAll_spliced {args args' : List Value} (hl : ∀ a ∈ args, a.cells?.isSome)
    (h : equalAll args args' = true) :
    equalAll (args.flatMap spliced) (args'.flatMap spliced) = true := by
  match args, args', hl, h with
  | [], [], _, _ => rfl
  | a :: args, b :: args', hl, h =>
    obtain ⟨ha, hr⟩ := List.forall_mem_cons.mp hl
    obtain ⟨hab, hs⟩ := Bool.and_eq_true_iff.mp h
    obtain ⟨xs, ys, hxs, hys, hcells⟩ := exists_cells_of_equal ha hab
    rw [List.flatMap_cons, List.flatMap_cons, spliced, spliced, hxs, hys]
    exact equalAll_append hcells (equalAll_spliced hr hs)

/-- Equal lists are both empty, or have equal first cells and equal rests to take from. -/
theorem ofExcept_someCells_equal (name : Name) {take : Value × List Value → Value}
    (htake : ∀ {x y : Value} {xs ys : List Value}, x.equal y = true → equalAll xs ys = true →
      (take (x, xs)).equal (take (y, ys)) = true)
    {a b : Value} (ha : a.cells?.isSome) (h : a.equal b = true) :
    (Value.ofExcept ((someCells name a).map take)).equal
      (.ofExcept ((someCells name b).map take)) = true := by
  obtain ⟨xs, ys, hxs, hys, hcells⟩ := exists_cells_of_equal ha h
  rw [someCells, someCells, hxs, hys]
  match xs, ys, hcells with
  | [], [], _ => exact equal_error _
  | x :: xs, y :: ys, hcells =>
    obtain ⟨hxy, hr⟩ := Bool.and_eq_true_iff.mp hcells
    exact htake hxy hr

theorem compute_head_equal {a b : Value} (ha : a.cells?.isSome) (h : a.equal b = true) :
    (compute .head [a]).equal (compute .head [b]) = true := by
  refine ofExcept_someCells_equal "head" ?_ ha h
  intro x y xs ys hxy _
  exact Bool.and_eq_true_iff.mpr ⟨hxy, rfl⟩

theorem compute_tail_equal {a b : Value} (ha : a.cells?.isSome) (h : a.equal b = true) :
    (compute .tail [a]).equal (compute .tail [b]) = true := by
  refine ofExcept_someCells_equal "tail" ?_ ha h
  intro x y xs ys _ hr
  exact hr

end Operation

namespace Builtin

theorem firstFault?_of_lists {args : List Value} (h : ∀ a ∈ args, a.cells?.isSome) :
    firstFault? args = none := by
  rw [firstFault?_eq_none]
  intro a ha
  have hc := h a ha
  cases a with
  | error fault => cases hc
  | _ => rfl

theorem lists_of_equalAll {args args' : List Value} (hl : ∀ a ∈ args, a.cells?.isSome)
    (h : equalAll args args' = true) : ∀ b ∈ args', b.cells?.isSome := by
  match args, args', hl, h with
  | [], [], _, _ => exact List.forall_mem_nil _
  | a :: args, b :: args', hl, h =>
    obtain ⟨ha, hr⟩ := List.forall_mem_cons.mp hl
    obtain ⟨hab, hs⟩ := Bool.and_eq_true_iff.mp h
    obtain ⟨xs, ys, -, hys, -⟩ := exists_cells_of_equal ha hab
    exact List.forall_mem_cons.mpr ⟨by rw [hys]; rfl, lists_of_equalAll hr hs⟩

/-- The arguments of builtins that take exactly one. -/
theorem exists_single {args args' : List Value} (ha : (Arity.exactly 1).accepts args.length = true)
    (h : equalAll args args' = true) : ∃ a b, args = [a] ∧ args' = [b] ∧ a.equal b = true := by
  have hlen : args.length = 1 := beq_iff_eq.mp ha
  obtain ⟨a, rfl⟩ := List.length_eq_one_iff.mp hlen
  obtain ⟨b, rfl⟩ := List.length_eq_one_iff.mp ((equalAll_iff.mp h).1.symm.trans hlen)
  exact ⟨a, b, rfl, rfl, (Bool.and_eq_true_iff.mp h).1⟩

theorem call_lists_equal {name : Name} (hname : name ∈ ["list", "join", "head", "tail"])
    {f : Builtin} (hf : find? name = some f) {args args' : List Value}
    (hl : ∀ a ∈ args, a.cells?.isSome) (h : equalAll args args' = true) (ev : Value → Eval Value)
    (env : Env) :
    ∃ r r', f.call ev args env = some ⟨r, env, []⟩ ∧ f.call ev args' env = some ⟨r', env, []⟩ ∧
      r.equal r' = true := by
  have hlen := (equalAll_iff.mp h).1
  rw [call, call, firstFault?_of_lists hl, firstFault?_of_lists (lists_of_equalAll hl h), ← hlen]
  by_cases ha : f.arity.accepts args.length = true
  · simp only [if_pos ha]
    simp only [List.mem_cons, List.not_mem_nil, or_false] at hname
    rcases hname with rfl | rfl | rfl | rfl <;> cases hf
    · exact ⟨_, _, rfl, rfl, h⟩
    · exact ⟨_, _, rfl, rfl, Operation.equalAll_spliced hl h⟩
    · obtain ⟨a, b, rfl, rfl, hab⟩ := exists_single ha h
      exact ⟨_, _, rfl, rfl, Operation.compute_head_equal (hl a List.mem_cons_self) hab⟩
    · obtain ⟨a, b, rfl, rfl, hab⟩ := exists_single ha h
      exact ⟨_, _, rfl, rfl, Operation.compute_tail_equal (hl a List.mem_cons_self) hab⟩
  · simp only [if_neg ha]
    exact ⟨_, _, rfl, rfl, equal_error _⟩

end Builtin

namespace Value

/-- Values without doubles are equal exactly if they have one normal form. Equal lists stay equal under
the builtins for lists, whether these give a list or refuse an empty one. -/
theorem equal_iff_one_norm (a b : Value) (ha : a.FloatFree) (hb : b.FloatFree) :
    (a.equal b = true ↔ a.norm = b.norm) ∧
    ∀ name ∈ ["list", "join", "head", "tail"], ∀ f, Builtin.find? name = some f →
      ∀ args args', (∀ x ∈ args, x.cells?.isSome) → equalAll args args' = true →
        ∀ (ev : Value → Eval Value) (env : Env), ∃ r r', f.call ev args env = some ⟨r, env, []⟩ ∧
          f.call ev args' env = some ⟨r', env, []⟩ ∧ r.equal r' = true := by
  refine ⟨equal_iff_norm ha hb, ?_⟩
  intro name hname f hf args args' hl h
  exact Builtin.call_lists_equal hname hf hl h

/-- Lists of three kinds, with code in a closure whose quoting does not count either. -/
theorem equal_iff_one_norm_closure : ∃ a b : Value,
    a = .quoted [.int 1, .seq [.str "s"], .lambda ["x"] (.quoted [.sym "x"]) []] ∧
    b = .seq [.int 1, .expr .plain [.str "s"], .lambda ["x"] (.expr .quasi [.sym "x"]) []] ∧
    a.FloatFree ∧ b.FloatFree ∧ a.equal b = true ∧ a.norm = b.norm ∧
    ∀ (ev : Value → Eval Value) (env : Env), ∃ r r',
      Builtin.call ev ⟨"tail", .exactly 1, .tail⟩ [a] env = some ⟨r, env, []⟩ ∧
      Builtin.call ev ⟨"tail", .exactly 1, .tail⟩ [b] env = some ⟨r', env, []⟩ ∧
      r.equal r' = true := by
  refine ⟨_, _, rfl, rfl, ?_⟩
  have ha : (quoted [.int 1, .seq [.str "s"], .lambda ["x"] (.quoted [.sym "x"]) []]).FloatFree := by
    simp [FloatFree, Everywhere, quoted, parts, partsOfAll, partsOfBindings, NotFloat]
  have hb : (seq [.int 1, .expr .plain [.str "s"],
      .lambda ["x"] (.expr .quasi [.sym "x"]) []]).FloatFree := by
    simp [FloatFree, Everywhere, parts, partsOfAll, partsOfBindings, NotFloat]
  obtain ⟨hiff, hstay⟩ := equal_iff_one_norm _ _ ha hb
  have hab := hiff.mpr rfl
  refine ⟨ha, hb, hab, rfl, ?_⟩
  exact hstay "tail" (by simp) _ rfl _ _ (by simp [quoted, cells?])
    (Bool.and_eq_true_iff.mpr ⟨hab, rfl⟩)

end Value

end Lisplet
