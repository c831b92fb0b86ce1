import Lisplet.Form
import Lisplet.Proofs.Grammar
import Lisplet.Proofs.Segmentation

/-! Reading follows the grammar: a tree that grouping finds reads as a value exactly if its
tokens are a datum with that value. -/

namespace Lisplet

theorem except_bind_eq_ok {ε α β : Type} {x : Except ε α} {f : α → Except ε β} {b : β} :
    x >>= f = .ok b ↔ ∃ a, x = .ok a ∧ f a = .ok b := by
  cases x <;> simp [bind, Except.bind]

theorem except_map_eq_ok {ε α β : Type} {x : Except ε α} {f : α → β} {b : β} :
    x.map f = .ok b ↔ ∃ a, x = .ok a ∧ f a = b := by
  cases x <;> simp [Except.map]

namespace SpecialForm

theorem ofName?_name (f : SpecialForm) : ofName? f.name = some f := by
  cases f with
  | logic op => cases op <;> decide
  | _ => decide

theorem ofName?_eq_some {name : Name} {f : SpecialForm} :
    ofName? name = some f ↔ name = f.name := by
  constructor
  · intro h
    have hb := List.find?_some h
    exact (eq_of_beq hb).symm
  · rintro rfl
    exact ofName?_name f

theorem ofName?_eq_none {name : Name} :
    ofName? name = none ↔ name ∉ Grammar.specialNames := by
  have hn : Grammar.specialNames = all.map SpecialForm.name := by decide
  rw [hn, ofName?, List.find?_eq_none, List.mem_map]
  constructor
  · rintro h ⟨f, hf, rfl⟩
    exact h f hf (beq_self_eq_true _)
  · intro h f hf hb
    exact h ⟨f, hf, eq_of_beq hb⟩

end SpecialForm

namespace Form

variable {form : Name} {paren : Span} {close : Option Span} {items : List Tree}
  {values : List Value} {v : Value}

theorem closing_eq_ok {span : Span} : closing paren close = .ok span ↔ close = some span := by
  cases close <;> simp [closing]

/-- Whatever comes next is a problem. -/
theorem upcoming_bind_error {α : Type} {f : Token → Problem} {a : α}
    (h : (upcoming paren close items >>= fun found => Except.error (f found)) = .ok a) :
    False := by
  obtain ⟨found, -, h⟩ := except_bind_eq_ok.mp h
  cases h

/-- The items are symbols with these names. -/
inductive Symbols : List Tree → List Name → Prop where
  | nil : Symbols [] []
  | cons {name span items names} : Symbols items names →
      Symbols (.atom (.sym name) span :: items) (name :: names)

theorem symbols_eq_ok {names : List Name} {span : Span} :
    symbols form paren close items = .ok (names, span) ↔
      close = some span ∧ Symbols items names := by
  fun_induction symbols form paren close items generalizing names with
  | case1 =>
    simp only [except_map_eq_ok, closing_eq_ok]
    constructor
    · rintro ⟨_, rfl, h⟩
      cases h
      exact ⟨rfl, .nil⟩
    · rintro ⟨rfl, h⟩
      cases h
      exact ⟨span, rfl, rfl⟩
  | case2 name place rest ih =>
    rw [except_map_eq_ok]
    constructor
    · rintro ⟨⟨ns, last⟩, hs, he⟩
      cases he
      obtain ⟨hc, hn⟩ := ih.mp hs
      exact ⟨hc, .cons hn⟩
    · rintro ⟨hc, h⟩
      cases h with
      | cons h => exact ⟨_, ih.mpr ⟨hc, h⟩, rfl⟩
  | case3 t rest hne =>
    constructor
    · intro h
      cases h
    · rintro ⟨-, h⟩
      cases h with
      | cons h => exact (hne _ _ rfl).elim

/-- The tree names what a definition binds. -/
inductive Names : Tree → Name → Prop where
  | bare (name : Name) (span : Span) : Names (.atom (.sym name) span) name
  | wrapped (name : Name) (paren span close : Span) :
      Names (.group none paren [.atom (.sym name) span] (some close)) name

/-- The tree is a closed group of symbols with these names. -/
inductive Lists : Tree → List Name → Prop where
  | group {paren close items names} : Symbols items names →
      Lists (.group none paren items (some close)) names

theorem target_eq_ok {name : Name} : target form paren close items = .ok name ↔
    ∃ t rest, items = t :: rest ∧ Names t name := by
  constructor
  · intro h
    fun_cases target form paren close items with
    | case1 name span rest =>
      rw [target] at h
      cases h
      exact ⟨_, rest, rfl, .bare _ span⟩
    | case2 inner group last rest =>
      obtain ⟨⟨names, span⟩, hs, hm⟩ := except_bind_eq_ok.mp h
      obtain ⟨rfl, hn⟩ := symbols_eq_ok.mp hs
      match names, hn, hm with
      | [name], .cons .nil, hm =>
        cases hm
        exact ⟨_, rest, rfl, .wrapped _ _ _ _⟩
    | case3 hs hg =>
      rw [target] at h
      · exact (upcoming_bind_error h).elim
      all_goals assumption
  · rintro ⟨t, rest, rfl, hn⟩
    cases hn <;> rfl

theorem parameters_eq_ok {names : List Name} :
    (∃ span, parameters form paren close items = .ok (names, span)) ↔
      ∃ t rest, items = t :: rest ∧ Lists t names := by
  constructor
  · rintro ⟨span, h⟩
    fun_cases parameters form paren close items with
    | case1 inner group last rest =>
      obtain ⟨rfl, hn⟩ := symbols_eq_ok.mp h
      exact ⟨_, rest, rfl, .group hn⟩
    | case2 hg =>
      rw [parameters] at h
      · exact (upcoming_bind_error h).elim
      · assumption
  · rintro ⟨t, rest, rfl, hn⟩
    cases hn with
    | @group _ last _ _ hs => exact ⟨last, symbols_eq_ok.mpr ⟨rfl, hs⟩⟩

theorem signature_eq_ok {s : Name × List Name} : signature paren close items = .ok s ↔
    ∃ t rest, items = t :: rest ∧ Lists t (s.1 :: s.2) ∧ s.2 ≠ [] := by
  rw [signature, except_bind_eq_ok]
  constructor
  · rintro ⟨⟨names, span⟩, hp, hm⟩
    obtain ⟨t, rest, rfl, hl⟩ := parameters_eq_ok.mp ⟨span, hp⟩
    match names, hm with
    | _ :: _ :: _, hm =>
      cases hm
      exact ⟨t, rest, rfl, hl, List.cons_ne_nil _ _⟩
  · rintro ⟨t, rest, rfl, hl, hne⟩
    obtain ⟨span, hp⟩ := parameters_eq_ok.mpr ⟨t, rest, rfl, hl⟩
    refine ⟨_, hp, ?_⟩
    match s, hne with
    | (name, _ :: _), _ => rfl

theorem formals_eq_ok {names : List Name} : formals paren close items = .ok names ↔
    ∃ t rest, items = t :: rest ∧ Lists t names ∧ names ≠ [] := by
  rw [formals, except_bind_eq_ok]
  constructor
  · rintro ⟨⟨ns, span⟩, hp, hm⟩
    obtain ⟨t, rest, rfl, hl⟩ := parameters_eq_ok.mp ⟨span, hp⟩
    match ns, hm with
    | _ :: _, hm =>
      cases hm
      exact ⟨t, rest, rfl, hl, List.cons_ne_nil _ _⟩
  · rintro ⟨t, rest, rfl, hl, hne⟩
    obtain ⟨span, hp⟩ := parameters_eq_ok.mpr ⟨t, rest, rfl, hl⟩
    refine ⟨_, hp, ?_⟩
    match names, hne with
    | _ :: _, _ => rfl

theorem list_eq_ok {mode : Quoting} :
    list mode paren close values = .ok v ↔ (∃ span, close = some span) ∧ v = .expr mode values := by
  simp only [list, except_bind_eq_ok, closing_eq_ok]
  simp [eq_comm]

theorem body_eq_ok :
    body form paren close values = .ok v ↔ (∃ span, close = some span) ∧ values = [v] := by
  simp only [body, except_bind_eq_ok, closing_eq_ok]
  constructor
  · rintro ⟨span, rfl, hm⟩
    match values, hm with
    | [_], hm => cases hm; exact ⟨⟨span, rfl⟩, rfl⟩
  · rintro ⟨⟨span, rfl⟩, rfl⟩
    exact ⟨span, rfl, rfl⟩

theorem branch_eq_ok : branch paren close values = .ok v ↔
    (∃ span, close = some span) ∧ ∃ a b c, values = [a, b, c] ∧ v = .cond a b c := by
  simp only [branch, except_bind_eq_ok, closing_eq_ok]
  constructor
  · rintro ⟨span, rfl, hm⟩
    match values, hm with
    | [a, b, c], hm => cases hm; exact ⟨⟨span, rfl⟩, a, b, c, rfl, rfl⟩
  · rintro ⟨⟨span, rfl⟩, a, b, c, rfl, rfl⟩
    exact ⟨span, rfl, rfl⟩

theorem logic_eq_ok {op : Connective} : logic op paren close values = .ok v ↔
    (∃ span, close = some span) ∧ values ≠ [] ∧ v = .logic op values := by
  simp only [logic, except_bind_eq_ok, closing_eq_ok]
  cases values <;> simp [eq_comm]

theorem binding_eq_ok {name : Name} : binding name paren close values = .ok v ↔
    (∃ span, close = some span) ∧ ∃ w, values = [w] ∧ v = .define name w := by
  simp only [binding, except_bind_eq_ok, closing_eq_ok]
  constructor
  · rintro ⟨span, rfl, hm⟩
    match values, hm with
    | [w], hm => cases hm; exact ⟨⟨span, rfl⟩, w, rfl, rfl⟩
  · rintro ⟨⟨span, rfl⟩, w, rfl, rfl⟩
    exact ⟨span, rfl, rfl⟩

theorem bindings_eq_ok : bindings paren close values = .ok v ↔
    (∃ span, close = some span) ∧ values ≠ [] ∧ v = .expr .plain values := by
  simp only [bindings, except_bind_eq_ok, closing_eq_ok]
  cases values <;> simp [eq_comm]

end Form

namespace Tree

/-- The kinds of the tokens of a tree. -/
def kinds (t : Tree) : List Token.Kind := t.tokens.map Token.kind

def kindsOfAll (items : List Tree) : List Token.Kind := (tokensOfAll items).map Token.kind

@[simp] theorem kinds_atom (a : Atom) (span : Span) : (atom a span).kinds = [.atom a] := by
  simp [kinds, tokens]

@[simp] theorem kinds_group (paren close : Span) (items : List Tree) :
    (group none paren items (some close)).kinds = Grammar.parens (kindsOfAll items) := by
  simp [kinds, kindsOfAll, tokens, closeTokens]

@[simp] theorem kinds_marked (m : Mark) (span paren close : Span) (items : List Tree) :
    (group (some (m, span)) paren items (some close)).kinds =
      .mark m :: Grammar.parens (kindsOfAll items) := by
  simp [kinds, kindsOfAll, tokens, closeTokens]

@[simp] theorem kindsOfAll_nil : kindsOfAll [] = [] := rfl

@[simp] theorem kindsOfAll_cons (t : Tree) (rest : List Tree) :
    kindsOfAll (t :: rest) = t.kinds ++ kindsOfAll rest := by
  simp [kindsOfAll, kinds, tokensOfAll]

theorem tokens_eq_front_cons (t : Tree) : ∃ rest, t.tokens = t.front :: rest := by
  cases t with
  | atom a span => exact ⟨[], by rw [tokens, front]⟩
  | dangling mark span found =>
    obtain ⟨kind, place⟩ := found
    cases kind with
    | atom a => exact ⟨_, by rw [tokens, front]⟩
    | _ => exact ⟨[], by rw [tokens, front]; simp⟩
  | group mark paren items close =>
    rcases mark with _ | ⟨mark, span⟩
    · exact ⟨_, by rw [tokens, front]⟩
    · exact ⟨_, by rw [tokens, front]⟩

/-- Only an atom starts with an atom. -/
theorem kindsOfAll_eq_atom_cons {items : List Tree} {a : Atom} {ks : List Token.Kind}
    (h : kindsOfAll items = .atom a :: ks) : ∃ span rest, items = .atom a span :: rest := by
  cases items with
  | nil => cases h
  | cons t rest =>
    obtain ⟨more, hf⟩ := t.tokens_eq_front_cons
    simp only [kindsOfAll_cons, kinds, hf, List.map_cons, List.cons_append, List.cons.injEq] at h
    match t, h.1 with
    | .atom b span, hk => cases hk; exact ⟨span, rest, rfl⟩
    | .group none _ _ _, hk => cases hk
    | .group (some _) _ _ _, hk => cases hk

end Tree

namespace Form

theorem Symbols.kindsOfAll {items : List Tree} {names : List Name} (h : Symbols items names) :
    Tree.kindsOfAll items = names.map Grammar.sym := by
  induction h with
  | nil => rfl
  | cons h ih => simp [ih]

theorem Names.target {t : Tree} {name : Name} (h : Names t name) :
    Grammar.Target t.kinds name := by
  cases h with
  | bare => simpa using Grammar.Target.bare name
  | wrapped => simpa using Grammar.Target.wrapped name

theorem Lists.kinds {t : Tree} {names : List Name} (h : Lists t names) :
    t.kinds = Grammar.parens (names.map Grammar.sym) := by
  cases h with
  | group hs => rw [Tree.kinds_group, hs.kindsOfAll]

theorem special?_eq_some {items : List Tree} {f : SpecialForm} :
    special? items = some f ↔ ∃ span rest, items = .atom (.sym f.name) span :: rest := by
  fun_cases special? items with
  | case1 name span rest =>
    rw [SpecialForm.ofName?_eq_some]
    constructor
    · rintro rfl
      exact ⟨span, rest, rfl⟩
    · rintro ⟨_, _, h⟩
      cases h
      rfl
  | case2 =>
    constructor
    · intro h
      cases h
    · rintro ⟨span, rest, rfl⟩
      simp_all

theorem special?_eq_none {items : List Tree} :
    special? items = none ↔ Grammar.Ordinary (Tree.kindsOfAll items) := by
  constructor
  · intro h name ks hk
    -- The first token is a symbol, so the first item is that symbol and not a list.
    obtain ⟨span, rest, rfl⟩ := Tree.kindsOfAll_eq_atom_cons hk
    exact SpecialForm.ofName?_eq_none.mp h
  · intro h
    fun_cases special? items with
    | case1 name span rest =>
      exact SpecialForm.ofName?_eq_none.mpr (h name (Tree.kindsOfAll rest) (by simp))
    | case2 => rfl

end Form

namespace Tree

open Grammar

section

variable {paren span : Span} {close : Option Span} {items : List Tree} {v : Value}

theorem readAfter_succ (skip : Nat) (t : Tree) (rest : List Tree) :
    readAfter (skip + 1) (t :: rest) = readAfter skip rest := by
  rw [readAfter]

theorem readBindings_succ (skip : Nat) (t : Tree) (rest : List Tree) :
    readBindings (skip + 1) (t :: rest) = readBindings skip rest := by
  rw [readBindings]

theorem special?_head (f : SpecialForm) (span : Span) (items : List Tree) :
    Form.special? (.atom (.sym f.name) span :: items) = some f :=
  f.ofName?_name

theorem read_marked {m : Mark} : (group (some (m, span)) paren items close).read = .ok v ↔
    ∃ vs, readAfter 0 items = .ok vs ∧ (∃ last, close = some last) ∧ v = .expr m.quoting vs := by
  rw [read, except_bind_eq_ok]
  simp only [Form.list_eq_ok]

theorem read_list (hs : Form.special? items = none) :
    (group none paren items close).read = .ok v ↔
      ∃ vs, readAfter 0 items = .ok vs ∧ (∃ last, close = some last) ∧ v = .expr .plain vs := by
  simp only [read, hs, except_bind_eq_ok, Form.list_eq_ok]

theorem read_branch :
    (group none paren (.atom (.sym SpecialForm.branch.name) span :: items) close).read = .ok v ↔
      ∃ vs, readAfter 0 items = .ok vs ∧ (∃ last, close = some last) ∧
        ∃ a b c, vs = [a, b, c] ∧ v = .cond a b c := by
  simp only [read, special?_head, readAfter_succ, except_bind_eq_ok, Form.branch_eq_ok]

theorem read_logic {op : Connective} :
    (group none paren (.atom (.sym (SpecialForm.logic op).name) span :: items) close).read =
        .ok v ↔
      ∃ vs, readAfter 0 items = .ok vs ∧ (∃ last, close = some last) ∧
        vs ≠ [] ∧ v = .logic op vs := by
  simp only [read, special?_head, readAfter_succ, except_bind_eq_ok, Form.logic_eq_ok]

theorem read_bindings :
    (group none paren (.atom (.sym SpecialForm.bindings.name) span :: items) close).read =
        .ok v ↔
      ∃ ds, readBindings 0 items = .ok ds ∧ (∃ last, close = some last) ∧
        ds ≠ [] ∧ v = .expr .plain ds := by
  simp only [read, special?_head, readBindings_succ, except_bind_eq_ok, Form.bindings_eq_ok]

/-- What definitions and functions have in common: one tree that is not a value, then a body. -/
theorem header_body_eq_ok {α : Type} {form : Name} {header : Except Problem α}
    {build : α → Value → Value} {Good : Tree → α → Prop}
    (hh : ∀ a, header = .ok a ↔ ∃ t rest, items = t :: rest ∧ Good t a) :
    (do
      let a ← header
      let values ← readAfter 1 items
      let value ← Form.body form paren close values
      .ok (build a value)) = Except.ok v ↔
    ∃ a t rest w, items = t :: rest ∧ Good t a ∧ readAfter 0 rest = .ok [w] ∧
      (∃ last, close = some last) ∧ v = build a w := by
  simp only [except_bind_eq_ok, hh, Form.body_eq_ok]
  constructor
  · rintro ⟨a, ⟨t, rest, rfl, hg⟩, vs, hr, w, ⟨hc, rfl⟩, he⟩
    rw [readAfter_succ] at hr
    cases he
    exact ⟨a, t, rest, w, rfl, hg, hr, hc, rfl⟩
  · rintro ⟨a, t, rest, w, rfl, hg, hr, hc, rfl⟩
    rw [readAfter_succ]
    exact ⟨a, ⟨t, rest, rfl, hg⟩, [w], hr, w, ⟨hc, rfl⟩, rfl⟩

theorem read_define {f : SpecialForm} (hf : f = .define ∨ f = .shortDefine) :
    (group none paren (.atom (.sym f.name) span :: items) close).read = .ok v ↔
      ∃ name t rest w, items = t :: rest ∧ Form.Names t name ∧ readAfter 0 rest = .ok [w] ∧
        (∃ last, close = some last) ∧ v = .define name w := by
  rcases hf with rfl | rfl
  all_goals
    simp only [read, special?_head, readAfter_succ, List.drop_one, List.tail_cons]
    exact header_body_eq_ok fun _ => Form.target_eq_ok

theorem read_function :
    (group none paren (.atom (.sym SpecialForm.function.name) span :: items) close).read =
        .ok v ↔
      ∃ (s : Name × List Name) (t : Tree) (rest : List Tree) (w : Value),
        items = t :: rest ∧ (Form.Lists t (s.1 :: s.2) ∧ s.2 ≠ []) ∧
        readAfter 0 rest = .ok [w] ∧ (∃ last, close = some last) ∧
        v = .define s.1 (.lambda s.2 w []) := by
  simp only [read, special?_head, readAfter_succ, List.drop_one, List.tail_cons]
  exact header_body_eq_ok fun _ => Form.signature_eq_ok

theorem read_lambda :
    (group none paren (.atom (.sym SpecialForm.lambda.name) span :: items) close).read =
        .ok v ↔
      ∃ names t rest w, items = t :: rest ∧ (Form.Lists t names ∧ names ≠ []) ∧
        readAfter 0 rest = .ok [w] ∧ (∃ last, close = some last) ∧ v = .lambda names w [] := by
  simp only [read, special?_head, readAfter_succ, List.drop_one, List.tail_cons]
  exact header_body_eq_ok fun _ => Form.formals_eq_ok

theorem readAfter_cons {t : Tree} {rest : List Tree} {vs : List Value} :
    readAfter 0 (t :: rest) = .ok vs ↔
      ∃ w ws, t.read = .ok w ∧ readAfter 0 rest = .ok ws ∧ vs = w :: ws := by
  rw [readAfter, except_bind_eq_ok]
  simp only [except_bind_eq_ok]
  constructor
  · rintro ⟨w, ht, ws, hr, h⟩
    cases h
    exact ⟨w, ws, ht, hr, rfl⟩
  · rintro ⟨w, ws, ht, hr, rfl⟩
    exact ⟨w, ht, ws, hr, rfl⟩

theorem readBindings_cons {t : Tree} {rest : List Tree} {ds : List Value} :
    readBindings 0 (t :: rest) = .ok ds ↔
      ∃ paren name span inner last w ws,
        t = .group none paren (.atom (.sym name) span :: inner) (some last) ∧
        readAfter 0 inner = .ok [w] ∧ readBindings 0 rest = .ok ws ∧
        ds = .define name w :: ws := by
  constructor
  · intro h
    rw [readBindings.eq_def] at h
    split at h
    · contradiction
    · contradiction
    · rename_i he
      cases he
      obtain ⟨vs, hi, h⟩ := except_bind_eq_ok.mp h
      obtain ⟨d, hb, h⟩ := except_bind_eq_ok.mp h
      obtain ⟨ws, hr, h⟩ := except_bind_eq_ok.mp h
      cases h
      obtain ⟨⟨last, rfl⟩, w, rfl, rfl⟩ := Form.binding_eq_ok.mp hb
      exact ⟨_, _, _, _, last, w, ws, rfl, hi, hr, rfl⟩
    · exact (Form.upcoming_bind_error h).elim
    · cases h
  · rintro ⟨paren, name, span, inner, last, w, ws, rfl, hi, hr, rfl⟩
    rw [readBindings, except_bind_eq_ok]
    refine ⟨[w], hi, except_bind_eq_ok.mpr ⟨.define name w, ?_, ?_⟩⟩
    · exact Form.binding_eq_ok.mpr ⟨⟨last, rfl⟩, w, rfl, rfl⟩
    · exact except_bind_eq_ok.mpr ⟨ws, hr, rfl⟩

end

theorem kinds_special (name : Name) (span paren close : Span) (items : List Tree) :
    (group none paren (.atom (.sym name) span :: items) (some close)).kinds =
      parens (sym name :: kindsOfAll items) := by
  simp

mutual

theorem datum_of_read (t : Tree) {v : Value} (h : t.read = .ok v) : Datum t.kinds v := by
  match t with
  | .atom a span =>
    rw [read] at h
    cases h
    simpa using Datum.atom a
  | .dangling _ _ _ =>
    rw [read] at h
    cases h
  | .group (some (m, span)) paren items close =>
    obtain ⟨vs, hr, ⟨last, rfl⟩, rfl⟩ := read_marked.mp h
    rw [kinds_marked]
    exact .marked m (data_of_read items hr)
  | .group none paren items close =>
    cases hs : Form.special? items with
    | none =>
      obtain ⟨vs, hr, ⟨last, rfl⟩, rfl⟩ := (read_list hs).mp h
      rw [kinds_group]
      exact .list (Form.special?_eq_none.mp hs) (data_of_read items hr)
    | some f =>
      -- The head is the name of a form, and no other rule has a list with this head.
      obtain ⟨span, rest, rfl⟩ := Form.special?_eq_some.mp hs
      match f with
      | .branch =>
        obtain ⟨vs, hr, ⟨last, rfl⟩, a, b, c, rfl, rfl⟩ := read_branch.mp h
        obtain ⟨as, bs, cs, hk, ha, hb, hc⟩ := Data.triple.mp (data_of_read rest hr)
        rw [kinds_special, hk]
        exact .branch ha hb hc
      | .define =>
        obtain ⟨name, t, rest', w, rfl, ht, hr, ⟨last, rfl⟩, rfl⟩ :=
          (read_define (Or.inl rfl)).mp h
        rw [kinds_special, kindsOfAll_cons]
        exact .define (Or.inl rfl) ht.target (Data.single.mp (data_of_read rest' hr))
      | .shortDefine =>
        obtain ⟨name, t, rest', w, rfl, ht, hr, ⟨last, rfl⟩, rfl⟩ :=
          (read_define (Or.inr rfl)).mp h
        rw [kinds_special, kindsOfAll_cons]
        exact .define (Or.inr rfl) ht.target (Data.single.mp (data_of_read rest' hr))
      | .function =>
        obtain ⟨s, t, rest', w, rfl, ⟨hl, hne⟩, hr, ⟨last, rfl⟩, rfl⟩ := read_function.mp h
        rw [kinds_special, kindsOfAll_cons, hl.kinds]
        exact .function hne (Data.single.mp (data_of_read rest' hr))
      | .lambda =>
        obtain ⟨names, t, rest', w, rfl, ⟨hl, hne⟩, hr, ⟨last, rfl⟩, rfl⟩ := read_lambda.mp h
        rw [kinds_special, kindsOfAll_cons, hl.kinds]
        exact .lambda hne (Data.single.mp (data_of_read rest' hr))
      | .logic op =>
        obtain ⟨vs, hr, ⟨last, rfl⟩, hne, rfl⟩ := read_logic.mp h
        rw [kinds_special]
        exact .logic op hne (data_of_read rest hr)
      | .bindings =>
        obtain ⟨ds, hr, ⟨last, rfl⟩, hne, rfl⟩ := read_bindings.mp h
        rw [kinds_special]
        exact .bindings hne (bindings_of_read rest hr)

theorem data_of_read (items : List Tree) {vs : List Value}
    (h : readAfter 0 items = .ok vs) : Data (kindsOfAll items) vs := by
  match items with
  | [] =>
    rw [readAfter] at h
    cases h
    exact .nil
  | t :: rest =>
    obtain ⟨w, ws, ht, hr, rfl⟩ := readAfter_cons.mp h
    rw [kindsOfAll_cons]
    exact .cons (datum_of_read t ht) (data_of_read rest hr)

theorem bindings_of_read (items : List Tree) {ds : List Value}
    (h : readBindings 0 items = .ok ds) : Bindings (kindsOfAll items) ds := by
  match items with
  | [] =>
    rw [readBindings] at h
    cases h
    exact .nil
  | t :: rest =>
    obtain ⟨paren, name, span, inner, last, w, ws, rfl, hi, hr, rfl⟩ := readBindings_cons.mp h
    rw [kindsOfAll_cons, kinds_special]
    exact .cons (Data.single.mp (data_of_read inner hi)) (bindings_of_read rest hr)

end

end Tree

end Lisplet
