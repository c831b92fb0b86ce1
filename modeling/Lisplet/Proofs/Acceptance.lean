import Lisplet.Program
import Lisplet.Proofs.Reading

/-! Tokens of the grammar are accepted: they are grouped into trees that read as the values of
the grammar, whatever tokens follow. So a program has no problem exactly if its tokens are data,
and its forms are the values of these. -/

namespace Lisplet

open Grammar

theorem Forest.foldr_push_closing (items xs : List Tree) (close : Span) (outer : Forest) :
    items.foldr push (closing xs close outer) = closing (items ++ xs) close outer := by
  induction items with
  | nil => rfl
  | cons t rest ih => rw [List.foldr_cons, ih, push, List.cons_append]

theorem Tree.tokensOfAll_append (xs ys : List Tree) :
    tokensOfAll (xs ++ ys) = tokensOfAll xs ++ tokensOfAll ys := by
  induction xs with
  | nil => rfl
  | cons t rest ih => rw [List.cons_append, tokensOfAll, ih, tokensOfAll, List.append_assoc]

/-- Grouping turns the tokens into these trees, whatever follows. -/
structure Groups (us : List Token) (items : List Tree) : Prop where
  tokens : Tree.tokensOfAll items = us
  forest (rest : List Token) :
    Forest.ofTokens (us ++ rest) = items.foldr Forest.push (Forest.ofTokens rest)

namespace Groups

theorem nil : Groups [] [] := ⟨rfl, fun _ => rfl⟩

theorem atom (a : Atom) (span : Span) : Groups [⟨.atom a, span⟩] [.atom a span] := by
  constructor
  · simp [Tree.tokensOfAll, Tree.tokens]
  · intro rest
    simp [Forest.ofTokens]

theorem append {us vs : List Token} {xs ys : List Tree} (hx : Groups us xs)
    (hy : Groups vs ys) : Groups (us ++ vs) (xs ++ ys) := by
  constructor
  · rw [Tree.tokensOfAll_append, hx.tokens, hy.tokens]
  · intro rest
    rw [List.append_assoc, hx.forest, hy.forest, List.foldr_append]

variable {us : List Token} {items : List Tree}

theorem closing (h : Groups us items) (close : Span) (rest : List Token) :
    Forest.ofTokens (us ++ ⟨.rparen, close⟩ :: rest) =
      .closing items close (Forest.ofTokens rest) := by
  rw [h.forest, Forest.ofTokens, Forest.foldr_push_closing, List.append_nil]

theorem group (h : Groups us items) (paren close : Span) :
    Groups (⟨.lparen, paren⟩ :: (us ++ [⟨.rparen, close⟩]))
      [.group none paren items (some close)] := by
  constructor
  · simp [Tree.tokensOfAll, Tree.tokens, closeTokens, h.tokens]
  · intro rest
    simp [Forest.ofTokens, h.closing, Forest.wrap]

theorem marked (h : Groups us items) (m : Mark) (span paren close : Span) :
    Groups (⟨.mark m, span⟩ :: ⟨.lparen, paren⟩ :: (us ++ [⟨.rparen, close⟩]))
      [.group (some (m, span)) paren items (some close)] := by
  constructor
  · simp [Tree.tokensOfAll, Tree.tokens, closeTokens, h.tokens]
  · intro rest
    simp [Forest.ofTokens, h.closing, Forest.wrap]

end Groups

/-- All tokens of these kinds are grouped into trees with the property. -/
def Yields (ks : List Token.Kind) (Good : List Tree → Prop) : Prop :=
  ∀ us : List Token, us.map Token.kind = ks → ∃ items, Groups us items ∧ Good items

/-- The same for one tree. -/
def YieldsOne (ks : List Token.Kind) (Good : Tree → Prop) : Prop :=
  Yields ks fun items => ∃ t, items = [t] ∧ Good t

namespace Yields

variable {ks ls : List Token.Kind} {P Q : List Tree → Prop}

theorem nil (h : P []) : Yields [] P := by
  intro us hu
  obtain rfl := List.map_eq_nil_iff.mp hu
  exact ⟨[], .nil, h⟩

theorem atom (a : Atom) : YieldsOne [.atom a] fun t => ∃ span, t = .atom a span := by
  intro us hu
  obtain ⟨⟨_, span⟩, rfl, rfl⟩ := List.map_eq_singleton_iff.mp hu
  exact ⟨_, .atom a span, _, rfl, span, rfl⟩

theorem append (hp : Yields ks P) (hq : Yields ls Q) :
    Yields (ks ++ ls) fun items => ∃ xs ys, items = xs ++ ys ∧ P xs ∧ Q ys := by
  intro us hu
  obtain ⟨vs, ws, rfl, hv, hw⟩ := List.map_eq_append_iff.mp hu
  obtain ⟨xs, hx, px⟩ := hp vs hv
  obtain ⟨ys, hy, qy⟩ := hq ws hw
  exact ⟨_, hx.append hy, xs, ys, rfl, px, qy⟩

theorem imp (h : Yields ks P) (hpq : ∀ items, P items → Q items) : Yields ks Q := by
  intro us hu
  obtain ⟨items, hi, hp⟩ := h us hu
  exact ⟨items, hi, hpq items hp⟩

theorem one_imp {One Two : Tree → Prop} (h : YieldsOne ks One) (ho : ∀ t, One t → Two t) :
    YieldsOne ks Two := by
  refine h.imp ?_
  rintro _ ⟨t, rfl, ht⟩
  exact ⟨t, rfl, ho t ht⟩

/-- Tokens of the kinds of a group are parentheses around tokens of the kinds inside. -/
theorem split_parens {us : List Token} (h : us.map Token.kind = parens ks) :
    ∃ paren vs close, us = ⟨.lparen, paren⟩ :: (vs ++ [⟨.rparen, close⟩]) ∧
      vs.map Token.kind = ks := by
  obtain ⟨⟨_, paren⟩, rest, rfl, rfl, hr⟩ := List.map_eq_cons_iff.mp h
  obtain ⟨vs, ws, rfl, hv, hw⟩ := List.map_eq_append_iff.mp hr
  obtain ⟨⟨_, close⟩, rfl, rfl⟩ := List.map_eq_singleton_iff.mp hw
  exact ⟨paren, vs, close, rfl, hv⟩

theorem parens (h : Yields ks P) : YieldsOne (parens ks) fun t =>
    ∃ paren items close, t = .group none paren items (some close) ∧ P items := by
  intro us hu
  obtain ⟨paren, vs, close, rfl, hv⟩ := split_parens hu
  obtain ⟨items, hi, hp⟩ := h vs hv
  exact ⟨_, hi.group paren close, _, rfl, paren, items, close, rfl, hp⟩

theorem marked (m : Mark) (h : Yields ks P) : YieldsOne (.mark m :: Grammar.parens ks) fun t =>
    ∃ span paren items close, t = .group (some (m, span)) paren items (some close) ∧
      P items := by
  intro us hu
  obtain ⟨⟨_, span⟩, ws, rfl, rfl, hw⟩ := List.map_eq_cons_iff.mp hu
  obtain ⟨paren, vs, close, rfl, hv⟩ := split_parens hw
  obtain ⟨items, hi, hp⟩ := h vs hv
  exact ⟨_, hi.marked m span paren close, _, rfl, span, paren, items, close, rfl, hp⟩

theorem cons {One : Tree → Prop} (ht : YieldsOne ks One) (hp : Yields ls P)
    (h : ∀ t items, One t → P items → Q (t :: items)) : Yields (ks ++ ls) Q := by
  refine (ht.append hp).imp ?_
  rintro _ ⟨_, items, rfl, ⟨t, rfl, ho⟩, hi⟩
  exact h t items ho hi

/-- A list that starts with a name. -/
theorem named (name : Name) (h : Yields ks P) :
    YieldsOne (Grammar.parens (sym name :: ks)) fun t => ∃ paren span items close,
      t = .group none paren (.atom (.sym name) span :: items) (some close) ∧ P items := by
  have hc : Yields (sym name :: ks) fun items =>
      ∃ span rest, items = .atom (.sym name) span :: rest ∧ P rest := by
    refine cons (atom (.sym name)) h ?_
    rintro _ items ⟨span, rfl⟩ hp
    exact ⟨span, items, rfl, hp⟩
  refine one_imp hc.parens ?_
  rintro _ ⟨paren, _, close, rfl, span, items, rfl, hp⟩
  exact ⟨paren, span, items, close, rfl, hp⟩

theorem symbols (names : List Name) :
    Yields (names.map sym) fun items => Form.Symbols items names := by
  induction names with
  | nil => exact nil .nil
  | cons name rest ih =>
    refine cons (atom (.sym name)) ih ?_
    rintro _ items ⟨span, rfl⟩ hs
    exact .cons hs

theorem lists (names : List Name) :
    YieldsOne (Grammar.parens (names.map sym)) fun t => Form.Lists t names := by
  refine one_imp (symbols names).parens ?_
  rintro _ ⟨paren, items, close, rfl, hs⟩
  exact .group hs

theorem names {name : Name} (h : Target ks name) :
    YieldsOne ks fun t => Form.Names t name := by
  cases h with
  | bare =>
    refine one_imp (atom (.sym name)) ?_
    rintro _ ⟨span, rfl⟩
    exact .bare name span
  | wrapped =>
    refine one_imp (lists [name]) ?_
    intro t hl
    match t, hl with
    | _, .group (.cons .nil) => exact .wrapped name _ _ _

/-- The trees have the kinds that they come from. -/
theorem with_kinds (h : Yields ks P) :
    Yields ks fun items => P items ∧ Tree.kindsOfAll items = ks := by
  intro us hu
  obtain ⟨items, hi, hp⟩ := h us hu
  exact ⟨items, hi, hp, by rw [Tree.kindsOfAll, hi.tokens, hu]⟩

end Yields

def Reads (ks : List Token.Kind) (v : Value) : Prop := YieldsOne ks fun t => t.read = .ok v

def ReadsAll (ks : List Token.Kind) (vs : List Value) : Prop :=
  Yields ks fun items => Tree.readAfter 0 items = .ok vs

def ReadsBindings (ks : List Token.Kind) (ds : List Value) : Prop :=
  Yields ks fun items => Tree.readBindings 0 items = .ok ds

section

variable {ks ls ts : List Token.Kind} {v : Value} {vs : List Value}

theorem ReadsAll.nil : ReadsAll [] [] := Yields.nil (by rw [Tree.readAfter])

theorem ReadsAll.cons (h : Reads ks v) (hs : ReadsAll ls vs) : ReadsAll (ks ++ ls) (v :: vs) := by
  refine Yields.cons h hs ?_
  intro t items ht hi
  exact Tree.readAfter_cons.mpr ⟨v, vs, ht, hi, rfl⟩

theorem ReadsAll.single (h : Reads ks v) : ReadsAll ks [v] := by
  simpa using ReadsAll.cons h .nil

theorem ReadsBindings.nil : ReadsBindings [] [] := Yields.nil (by rw [Tree.readBindings])

theorem ReadsBindings.cons {name : Name} {ds : List Value} (h : Reads ks v)
    (hs : ReadsBindings ls ds) :
    ReadsBindings (parens (sym name :: ks) ++ ls) (.define name v :: ds) := by
  refine Yields.cons (Yields.named name (ReadsAll.single h)) hs ?_
  rintro _ items ⟨paren, span, inner, close, rfl, hi⟩ hr
  exact Tree.readBindings_cons.mpr ⟨paren, name, span, inner, close, v, ds, rfl, hi, hr, rfl⟩

namespace Reads

theorem atom (a : Atom) : Reads [.atom a] a.value := by
  refine Yields.one_imp (Yields.atom a) ?_
  rintro _ ⟨span, rfl⟩
  rw [Tree.read]

theorem list (ho : Ordinary ks) (h : ReadsAll ks vs) : Reads (parens ks) (.expr .plain vs) := by
  refine Yields.one_imp (Yields.with_kinds h).parens ?_
  rintro _ ⟨paren, items, close, rfl, hr, rfl⟩
  exact (Tree.read_list (Form.special?_eq_none.mpr ho)).mpr ⟨vs, hr, ⟨close, rfl⟩, rfl⟩

theorem marked (m : Mark) (h : ReadsAll ks vs) :
    Reads (.mark m :: parens ks) (.expr m.quoting vs) := by
  refine Yields.one_imp (Yields.marked m h) ?_
  rintro _ ⟨span, paren, items, close, rfl, hr⟩
  exact Tree.read_marked.mpr ⟨vs, hr, ⟨close, rfl⟩, rfl⟩

theorem branch {a b c : Value} (h : ReadsAll ks [a, b, c]) :
    Reads (parens (sym "if" :: ks)) (.cond a b c) := by
  refine Yields.one_imp (Yields.named "if" h) ?_
  rintro _ ⟨paren, span, items, close, rfl, hr⟩
  exact Tree.read_branch.mpr ⟨_, hr, ⟨close, rfl⟩, a, b, c, rfl, rfl⟩

theorem logic (op : Connective) (hne : vs ≠ []) (h : ReadsAll ks vs) :
    Reads (parens (sym op.name :: ks)) (.logic op vs) := by
  refine Yields.one_imp (Yields.named op.name h) ?_
  rintro _ ⟨paren, span, items, close, rfl, hr⟩
  exact Tree.read_logic.mpr ⟨vs, hr, ⟨close, rfl⟩, hne, rfl⟩

theorem bindings (hne : vs ≠ []) (h : ReadsBindings ks vs) :
    Reads (parens (sym "let" :: ks)) (.expr .plain vs) := by
  refine Yields.one_imp (Yields.named "let" h) ?_
  rintro _ ⟨paren, span, items, close, rfl, hr⟩
  exact Tree.read_bindings.mpr ⟨vs, hr, ⟨close, rfl⟩, hne, rfl⟩

/-- What definitions and functions have in common: a header, then a body. -/
theorem header {Good : Tree → Prop} (name : Name) (ht : YieldsOne ts Good) (h : Reads ks v) :
    YieldsOne (parens (sym name :: (ts ++ ks))) fun t => ∃ paren span header rest close,
      t = .group none paren (.atom (.sym name) span :: header :: rest) (some close) ∧
      Good header ∧ Tree.readAfter 0 rest = .ok [v] := by
  have hc : Yields (ts ++ ks) fun items =>
      ∃ header rest, items = header :: rest ∧ Good header ∧ Tree.readAfter 0 rest = .ok [v] := by
    refine Yields.cons ht (ReadsAll.single h) ?_
    intro header rest hg hr
    exact ⟨header, rest, rfl, hg, hr⟩
  refine Yields.one_imp (Yields.named name hc) ?_
  rintro _ ⟨paren, span, _, close, rfl, header, rest, rfl, hg, hr⟩
  exact ⟨paren, span, header, rest, close, rfl, hg, hr⟩

theorem define {form name : Name} (hf : form = "define" ∨ form = "def") (ht : Target ts name)
    (h : Reads ks v) : Reads (parens (sym form :: (ts ++ ks))) (.define name v) := by
  obtain ⟨f, hd, rfl⟩ : ∃ f : SpecialForm, (f = .define ∨ f = .shortDefine) ∧ f.name = form := by
    rcases hf with rfl | rfl
    · exact ⟨.define, Or.inl rfl, rfl⟩
    · exact ⟨.shortDefine, Or.inr rfl, rfl⟩
  refine Yields.one_imp (header f.name (Yields.names ht) h) ?_
  rintro _ ⟨paren, span, header, rest, close, rfl, hn, hr⟩
  exact (Tree.read_define hd).mpr ⟨name, header, rest, v, rfl, hn, hr, ⟨close, rfl⟩, rfl⟩

theorem function {name : Name} {formals : List Name} (hne : formals ≠ []) (h : Reads ks v) :
    Reads (parens (sym "defun" :: (parens ((name :: formals).map sym) ++ ks)))
      (.define name (.lambda formals v [])) := by
  refine Yields.one_imp (header "defun" (Yields.lists (name :: formals)) h) ?_
  rintro _ ⟨paren, span, header, rest, close, rfl, hl, hr⟩
  exact Tree.read_function.mpr
    ⟨(name, formals), header, rest, v, rfl, ⟨hl, hne⟩, hr, ⟨close, rfl⟩, rfl⟩

theorem lambda {formals : List Name} (hne : formals ≠ []) (h : Reads ks v) :
    Reads (parens (sym "lambda" :: (parens (formals.map sym) ++ ks))) (.lambda formals v []) := by
  refine Yields.one_imp (header "lambda" (Yields.lists formals) h) ?_
  rintro _ ⟨paren, span, header, rest, close, rfl, hl, hr⟩
  exact Tree.read_lambda.mpr ⟨formals, header, rest, v, rfl, ⟨hl, hne⟩, hr, ⟨close, rfl⟩, rfl⟩

end Reads

end

namespace Grammar

mutual

theorem Datum.reads {ks : List Token.Kind} {v : Value} : Datum ks v → Reads ks v
  | .atom a => .atom a
  | .list ho h => .list ho h.reads
  | .marked m h => .marked m h.reads
  | .branch ha hb hc => by
    rw [List.append_assoc]
    exact .branch (.cons ha.reads (.cons hb.reads (.single hc.reads)))
  | .define hf ht h => .define hf ht h.reads
  | .function hne h => .function hne h.reads
  | .lambda hne h => .lambda hne h.reads
  | .logic op hne h => .logic op hne h.reads
  | .bindings hne h => .bindings hne h.reads

theorem Data.reads {ks : List Token.Kind} {vs : List Value} : Data ks vs → ReadsAll ks vs
  | .nil => .nil
  | .cons h hs => .cons h.reads hs.reads

theorem Bindings.reads {ks : List Token.Kind} {ds : List Value} :
    Bindings ks ds → ReadsBindings ks ds
  | .nil => .nil
  | .cons h hs => .cons h.reads hs.reads

end

end Grammar

theorem Forest.segments_foldr_push (items : List Tree) (f : Forest) :
    (items.foldr push f).segments = items.map .tree ++ f.segments := by
  induction items with
  | nil => rfl
  | cons t rest ih => rw [List.foldr_cons, segments_push, ih, List.map_cons, List.cons_append]

theorem Segment.read_eq_ok {s : Segment} {v : Value} :
    s.read = .ok v ↔ ∃ t, s = .tree t ∧ t.read = .ok v := by
  cases s <;> simp [read]

namespace Program

theorem addForm_eq {p : Program} {v : Value} {vs : List Value} {problems : List Problem} :
    p.addForm v = ⟨vs, problems⟩ ↔ ∃ ws, vs = v :: ws ∧ p = ⟨ws, problems⟩ := by
  constructor
  · intro h
    cases h
    exact ⟨p.forms, rfl, rfl⟩
  · rintro ⟨ws, rfl, rfl⟩
    rfl

/-- As long as there is no problem, segments are read like the items of a list. -/
theorem ofSegments_eq_iff {room : Nat} {segments : List Segment} {vs : List Value} :
    ofSegments (room + 1) segments = ⟨vs, []⟩ ↔
      ∃ items, segments = items.map .tree ∧ Tree.readAfter 0 items = .ok vs := by
  induction segments generalizing vs with
  | nil =>
    constructor
    · intro h
      cases h
      exact ⟨[], rfl, by rw [Tree.readAfter]⟩
    · rintro ⟨items, he, hr⟩
      obtain rfl := List.map_eq_nil_iff.mp he.symm
      rw [Tree.readAfter] at hr
      cases hr
      rfl
  | cons s rest ih =>
    cases hs : s.read with
    | ok v =>
      obtain ⟨t, rfl, ht⟩ := Segment.read_eq_ok.mp hs
      simp only [ofSegments, hs, addForm_eq, ih]
      constructor
      · rintro ⟨ws, rfl, items, rfl, hr⟩
        exact ⟨t :: items, rfl, Tree.readAfter_cons.mpr ⟨v, ws, ht, hr, rfl⟩⟩
      · rintro ⟨items, he, hr⟩
        obtain ⟨t', items, rfl, he', rfl⟩ := List.map_eq_cons_iff.mp he.symm
        cases he'
        obtain ⟨w, ws, hw, hws, rfl⟩ := Tree.readAfter_cons.mp hr
        cases ht.symm.trans hw
        exact ⟨ws, rfl, items, rfl, hws⟩
    | error problem =>
      simp only [ofSegments, hs]
      constructor
      · intro h
        cases h
      · rintro ⟨items, he, hr⟩
        obtain ⟨t', items, rfl, rfl, rfl⟩ := List.map_eq_cons_iff.mp he.symm
        obtain ⟨w, ws, hw, -⟩ := Tree.readAfter_cons.mp hr
        cases hs.symm.trans hw

theorem ofTokens_eq_iff {tokens : List Token} {forms : List Value} :
    ofTokens tokens = ⟨forms, []⟩ ↔ Data ((beforeEnd tokens).map Token.kind) forms := by
  constructor
  · intro h
    obtain ⟨items, hs, hr⟩ := ofSegments_eq_iff.mp h
    -- All segments are trees, so the trees have all tokens before the end.
    have ht : Tree.tokensOfAll items = beforeEnd tokens := by
      rw [← Segmentation.flatten_cut (beforeEnd tokens), ← segments_tokens, hs,
        Segment.flatten_tokens_trees]
    rw [← ht]
    exact Tree.data_of_read items hr
  · intro h
    -- What the tokens are grouped into does not depend on what follows, here the end of input.
    obtain ⟨items, hg, hr⟩ := h.reads (beforeEnd tokens) rfl
    obtain ⟨rest, he, hd⟩ := exists_beforeEnd_append tokens
    have hf : Forest.ofTokens tokens = items.foldr Forest.push (.ending []) := by
      rw [he, hg.forest, ofTokens_of_beforeEnd hd]
    refine ofSegments_eq_iff.mpr ⟨items, ?_, hr⟩
    rw [hf, Forest.segments_foldr_push]
    simp [Forest.segments]

/-- Programs are exactly the sequences of data. -/
theorem ofTokens_problems_nil_iff_data (tokens : List Token) :
    ((ofTokens tokens).problems = [] ↔
      ∃ forms, Data ((beforeEnd tokens).map Token.kind) forms) ∧
    ∀ forms, Data ((beforeEnd tokens).map Token.kind) forms →
      (ofTokens tokens).forms = forms := by
  refine ⟨⟨fun h => ?_, ?_⟩, ?_⟩
  · exact ⟨(ofTokens tokens).forms, ofTokens_eq_iff.mp (by rw [← h])⟩
  · rintro ⟨forms, h⟩
    rw [ofTokens_eq_iff.mpr h]
  · intro forms h
    rw [ofTokens_eq_iff.mpr h]

end Program

end Lisplet
