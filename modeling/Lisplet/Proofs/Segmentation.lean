import Lisplet.Tree

/-! The segments of a program as stretches of its tokens. They are cut off one after another
by counting parentheses, with no regard to what a list means; the trees that are read are
exactly these segments. -/

namespace Lisplet

/-- The tokens before the first end of input. -/
def beforeEnd (tokens : List Token) : List Token := tokens.takeWhile (·.kind ≠ .eof)

namespace Segmentation

def keep (t : Token) (p : List Token × List Token) : List Token × List Token := (t :: p.1, p.2)

/-- What belongs to an open parenthesis inside which `depth` more are open, and what is left:
it ends with the partner, or with the last token if there is none. -/
def group : Nat → List Token → List Token × List Token
  | _, [] => ([], [])
  | depth, ⟨.lparen, span⟩ :: rest => keep ⟨.lparen, span⟩ (group (depth + 1) rest)
  | 0, ⟨.rparen, span⟩ :: rest => ([⟨.rparen, span⟩], rest)
  | depth + 1, ⟨.rparen, span⟩ :: rest => keep ⟨.rparen, span⟩ (group depth rest)
  | depth, t :: rest => keep t (group depth rest)

/-- The first segment and what is left. -/
def first : List Token → List Token × List Token
  | [] => ([], [])
  | ⟨.lparen, paren⟩ :: rest => keep ⟨.lparen, paren⟩ (group 0 rest)
  | ⟨.mark m, span⟩ :: ⟨.lparen, paren⟩ :: rest =>
    keep ⟨.mark m, span⟩ (keep ⟨.lparen, paren⟩ (group 0 rest))
  | ⟨.mark m, span⟩ :: ⟨.atom a, place⟩ :: rest =>
    ([⟨.mark m, span⟩, ⟨.atom a, place⟩], rest)
  | t :: rest => ([t], rest)

theorem group_append (depth : Nat) (ts : List Token) :
    (group depth ts).1 ++ (group depth ts).2 = ts := by
  fun_induction group depth ts <;> simp_all [keep]

theorem first_append (ts : List Token) : (first ts).1 ++ (first ts).2 = ts := by
  fun_cases first ts <;> simp [keep, group_append]

theorem first_ne_nil {ts : List Token} (h : ts ≠ []) : (first ts).1 ≠ [] := by
  fun_cases first ts <;> simp_all [keep]

theorem first_rest_length (t : Token) (rest : List Token) :
    (first (t :: rest)).2.length < (t :: rest).length := by
  have ha := congrArg List.length (first_append (t :: rest))
  have hp := List.length_pos_iff.mpr (first_ne_nil (List.cons_ne_nil t rest))
  rw [List.length_append] at ha
  omega

/-- All segments, from left to right. -/
def cut : List Token → List (List Token)
  | [] => []
  | t :: rest => (first (t :: rest)).1 :: cut (first (t :: rest)).2
termination_by tokens => tokens.length
decreasing_by exact first_rest_length t rest

/-- Every token is in one segment. -/
theorem flatten_cut (ts : List Token) : (cut ts).flatten = ts := by
  fun_induction cut ts with
  | case1 => rfl
  | case2 t rest ih => rw [List.flatten_cons, ih, first_append]

end Segmentation

/-- The closing parenthesis of a group, if it has one. -/
def closeTokens : Option Span → List Token
  | some close => [⟨.rparen, close⟩]
  | none => []

mutual

/-- The tokens that a tree takes. What a quote mark without list found belongs to the tree only
if it is an atom. -/
def Tree.tokens : Tree → List Token
  | .atom a span => [⟨.atom a, span⟩]
  | .dangling mark span ⟨.atom a, place⟩ => [⟨.mark mark, span⟩, ⟨.atom a, place⟩]
  | .dangling mark span _ => [⟨.mark mark, span⟩]
  | .group (some (mark, span)) paren items close =>
    ⟨.mark mark, span⟩ :: ⟨.lparen, paren⟩ :: (Tree.tokensOfAll items ++ closeTokens close)
  | .group none paren items close =>
    ⟨.lparen, paren⟩ :: (Tree.tokensOfAll items ++ closeTokens close)

def Tree.tokensOfAll : List Tree → List Token
  | [] => []
  | t :: rest => t.tokens ++ Tree.tokensOfAll rest

end

@[simp] theorem beforeEnd_nil : beforeEnd [] = [] := rfl

@[simp] theorem beforeEnd_eof (span : Span) (rest : List Token) :
    beforeEnd (⟨.eof, span⟩ :: rest) = [] := by
  simp [beforeEnd]

@[simp] theorem beforeEnd_cons {t : Token} (h : t.kind ≠ .eof) (rest : List Token) :
    beforeEnd (t :: rest) = t :: beforeEnd rest := by
  simp [beforeEnd, h]

theorem exists_beforeEnd_append (ts : List Token) :
    ∃ rest, ts = beforeEnd ts ++ rest ∧ beforeEnd rest = [] := by
  refine ⟨ts.dropWhile (·.kind ≠ .eof), List.takeWhile_append_dropWhile.symm, ?_⟩
  induction ts with
  | nil => rfl
  | cons t rest ih =>
    by_cases h : t.kind = .eof
    · simp [beforeEnd, h]
    · simpa [h] using ih

theorem ofTokens_of_beforeEnd {ts : List Token} (h : beforeEnd ts = []) :
    Forest.ofTokens ts = .ending [] := by
  match ts with
  | [] => rfl
  | ⟨kind, span⟩ :: rest =>
    cases kind with
    | eof => simp [Forest.ofTokens]
    | _ => simp at h

open Segmentation in
/-- The tokens start with those of a tree, and the same tree comes first in the forest. The
tree ends where its segment does, and closes no parenthesis that was open before it. -/
structure Leads (ts : List Token) (t : Tree) (post : List Token) : Prop where
  tokens : ts = t.tokens ++ post
  forest : Forest.ofTokens ts = (Forest.ofTokens post).push t
  first : first (beforeEnd ts) = (t.tokens, beforeEnd post)
  group (depth : Nat) : group depth (beforeEnd ts) =
    (t.tokens ++ (group depth (beforeEnd post)).1, (group depth (beforeEnd post)).2)

open Segmentation in
/-- The trees up to the end of the tokens, or up to the first parenthesis that closes none of
them, which is where counting parentheses stops too. -/
inductive Spread (ts : List Token) : Prop where
  | ending (items : List Tree) (post : List Token)
      (tokens : ts = Tree.tokensOfAll items ++ post)
      (done : beforeEnd post = [])
      (forest : Forest.ofTokens ts = .ending items)
      (group : ∀ depth, group depth (beforeEnd ts) = (Tree.tokensOfAll items, []))
  | closing (items : List Tree) (close : Span) (post : List Token)
      (tokens : ts = Tree.tokensOfAll items ++ ⟨.rparen, close⟩ :: post)
      (forest : Forest.ofTokens ts = .closing items close (Forest.ofTokens post))
      (zero : group 0 (beforeEnd ts) =
        (Tree.tokensOfAll items ++ [⟨.rparen, close⟩], beforeEnd post))
      (succ : ∀ depth, group (depth + 1) (beforeEnd ts) =
        (Tree.tokensOfAll items ++ ⟨.rparen, close⟩ :: (group depth (beforeEnd post)).1,
          (group depth (beforeEnd post)).2))

open Segmentation in
/-- A parenthesis in front of such tokens opens a group, with or without a mark. -/
theorem Spread.leads {rest : List Token} (h : Spread rest) (paren : Span) :
    ∃ items close post,
      Leads (⟨.lparen, paren⟩ :: rest) (.group none paren items close) post ∧
      ∀ m span, Leads (⟨.mark m, span⟩ :: ⟨.lparen, paren⟩ :: rest)
        (.group (some (m, span)) paren items close) post := by
  cases h with
  | ending items post tokens done forest hg =>
    refine ⟨items, none, post, ?_, fun m span => ?_⟩
    all_goals
      constructor
      · simp [Tree.tokens, closeTokens, tokens]
      · simp [Forest.ofTokens, forest, ofTokens_of_beforeEnd done, Forest.wrap, Forest.push]
      · simp [Segmentation.first, keep, hg, Tree.tokens, closeTokens, done]
      · simp [Segmentation.group, keep, hg, Tree.tokens, closeTokens, done]
  | closing items close post tokens forest zero succ =>
    refine ⟨items, some close, post, ?_, fun m span => ?_⟩
    all_goals
      constructor
      · simp [Tree.tokens, closeTokens, tokens]
      · simp [Forest.ofTokens, forest, Forest.wrap]
      · simp [Segmentation.first, keep, zero, Tree.tokens, closeTokens]
      · simp [Segmentation.group, keep, succ, Tree.tokens, closeTokens]

theorem leads_atom (a : Atom) (span : Span) (rest : List Token) :
    Leads (⟨.atom a, span⟩ :: rest) (.atom a span) rest := by
  constructor <;> simp [Tree.tokens, Forest.ofTokens, Segmentation.first, Segmentation.group,
    Segmentation.keep]

theorem leads_marked_atom (m : Mark) (span : Span) (a : Atom) (place : Span)
    (rest : List Token) :
    Leads (⟨.mark m, span⟩ :: ⟨.atom a, place⟩ :: rest) (.dangling m span ⟨.atom a, place⟩)
      rest := by
  constructor <;> simp [Tree.tokens, Forest.ofTokens, Segmentation.first, Segmentation.group,
    Segmentation.keep]

/-- A mark before anything but an atom or a list is a tree by itself. -/
theorem exists_leads_lone_mark (m : Mark) (span : Span) (rest : List Token)
    (h : ∀ kind place more, rest = ⟨kind, place⟩ :: more →
      kind ≠ .lparen ∧ ∀ a, kind ≠ .atom a) :
    ∃ found, Leads (⟨.mark m, span⟩ :: rest) (.dangling m span found) rest := by
  match rest with
  | [] =>
    refine ⟨⟨.eof, span⟩, ?_⟩
    constructor <;> simp [Tree.tokens, Forest.ofTokens, Segmentation.first, Segmentation.group,
      Segmentation.keep, Forest.push]
  | ⟨kind, place⟩ :: more =>
    obtain ⟨hl, ha⟩ := h kind place more rfl
    refine ⟨⟨kind, place⟩, ?_⟩
    cases kind with
    | lparen => exact (hl rfl).elim
    | atom a => exact (ha a rfl).elim
    | _ =>
      constructor <;> simp [Tree.tokens, Forest.ofTokens, Segmentation.first,
        Segmentation.group, Segmentation.keep, Forest.push]

theorem exists_leads (ts : List Token) (h : ∀ us, us.length < ts.length → Spread us) :
    beforeEnd ts = [] ∨ (∃ span rest, ts = ⟨.rparen, span⟩ :: rest) ∨
      ∃ t post, Leads ts t post := by
  match ts with
  | [] => exact Or.inl rfl
  | ⟨.eof, span⟩ :: rest => exact Or.inl (beforeEnd_eof span rest)
  | ⟨.rparen, span⟩ :: rest => exact Or.inr (Or.inl ⟨span, rest, rfl⟩)
  | ⟨.atom a, span⟩ :: rest => exact Or.inr (Or.inr ⟨_, rest, leads_atom a span rest⟩)
  | ⟨.lparen, paren⟩ :: rest =>
    obtain ⟨items, close, post, hl, -⟩ := (h rest (by simp)).leads paren
    exact Or.inr (Or.inr ⟨_, post, hl⟩)
  | ⟨.mark m, span⟩ :: rest =>
    -- A mark takes a list or an atom with it, and stands alone before anything else.
    by_cases hl : ∃ paren more, rest = ⟨.lparen, paren⟩ :: more
    · obtain ⟨paren, more, rfl⟩ := hl
      have hlt : more.length < more.length + 1 + 1 := by omega
      obtain ⟨items, close, post, -, hg⟩ := (h more hlt).leads paren
      exact Or.inr (Or.inr ⟨_, post, hg m span⟩)
    by_cases ha : ∃ a place more, rest = ⟨.atom a, place⟩ :: more
    · obtain ⟨a, place, more, rfl⟩ := ha
      exact Or.inr (Or.inr ⟨_, more, leads_marked_atom m span a place more⟩)
    · obtain ⟨found, hd⟩ := exists_leads_lone_mark m span rest (by
        rintro kind place more rfl
        refine ⟨?_, fun a => ?_⟩
        · rintro rfl
          exact hl ⟨place, more, rfl⟩
        · rintro rfl
          exact ha ⟨a, place, more, rfl⟩)
      exact Or.inr (Or.inr ⟨_, rest, hd⟩)

theorem Tree.tokens_ne_nil (t : Tree) : t.tokens ≠ [] := by
  fun_cases Tree.tokens t <;> simp

theorem Leads.length_lt {ts post : List Token} {t : Tree} (h : Leads ts t post) :
    post.length < ts.length := by
  have hp := List.length_pos_iff.mpr t.tokens_ne_nil
  rw [h.tokens, List.length_append]
  omega

/-- A tree in front of such tokens. -/
theorem Leads.spread {ts post : List Token} {t : Tree} (h : Leads ts t post)
    (hp : Spread post) : Spread ts := by
  cases hp with
  | ending items last tokens done forest hg =>
    refine .ending (t :: items) last ?_ done ?_ fun depth => ?_
    · rw [h.tokens, tokens, Tree.tokensOfAll, List.append_assoc]
    · rw [h.forest, forest, Forest.push]
    · rw [h.group, hg, Tree.tokensOfAll]
  | closing items close last tokens forest zero succ =>
    refine .closing (t :: items) close last ?_ ?_ ?_ fun depth => ?_
    · rw [h.tokens, tokens, Tree.tokensOfAll, List.append_assoc]
    · rw [h.forest, forest, Forest.push]
    · rw [h.group, zero, Tree.tokensOfAll, List.append_assoc]
    · rw [h.group, succ, Tree.tokensOfAll, List.append_assoc]

theorem spread (ts : List Token) : Spread ts := by
  rcases exists_leads ts fun us _ => spread us with hd | ⟨span, rest, rfl⟩ | ⟨t, post, hl⟩
  · refine .ending [] ts rfl hd (ofTokens_of_beforeEnd hd) fun depth => ?_
    rw [hd]
    simp [Segmentation.group, Tree.tokensOfAll]
  · refine .closing [] span rest rfl ?_ ?_ fun depth => ?_
    all_goals simp [Forest.ofTokens, Segmentation.group, Segmentation.keep, Tree.tokensOfAll]
  · have hlt := hl.length_lt
    exact hl.spread (spread post)
termination_by ts.length

def Segment.tokens : Segment → List Token
  | .tree t => t.tokens
  | .stray close => [⟨.rparen, close⟩]

theorem Forest.segments_push (t : Tree) (f : Forest) :
    (f.push t).segments = .tree t :: f.segments := by
  cases f <;> simp [push, segments]

theorem Segment.flatten_tokens_trees (items : List Tree) :
    ((items.map Segment.tree).map Segment.tokens).flatten = Tree.tokensOfAll items := by
  induction items with
  | nil => rfl
  | cons t rest ih =>
    rw [List.map_cons, List.map_cons, List.flatten_cons, ih, Segment.tokens, Tree.tokensOfAll]

/-- Grouping and counting parentheses take the same tokens at each step, and go on from the same
place. So what holds at the end, and in front of a segment if it holds after it, holds always. -/
theorem segments_induction {P : List Token → Prop}
    (done : ∀ ts, beforeEnd ts = [] → (Forest.ofTokens ts).segments = [] → P ts)
    (step : ∀ (s : Segment) (post : List Token), beforeEnd (s.tokens ++ post) ≠ [] →
      Segmentation.first (beforeEnd (s.tokens ++ post)) = (s.tokens, beforeEnd post) →
      (Forest.ofTokens (s.tokens ++ post)).segments = s :: (Forest.ofTokens post).segments →
      P post → P (s.tokens ++ post))
    (ts : List Token) : P ts := by
  rcases exists_leads ts fun us _ => spread us with hd | ⟨span, rest, rfl⟩ | ⟨t, post, hl⟩
  · exact done ts hd (by simp [ofTokens_of_beforeEnd hd, Forest.segments])
  · refine step (.stray span) rest ?_ ?_ ?_ (segments_induction done step rest)
    all_goals simp [Forest.ofTokens, Forest.segments, Segmentation.first, Segment.tokens]
  · have hlt := hl.length_lt
    obtain rfl := hl.tokens
    refine step (.tree t) post ?_ hl.first ?_ (segments_induction done step post)
    · intro he
      rw [Segment.tokens] at he
      have hf := congrArg Prod.fst hl.first
      rw [he] at hf
      exact t.tokens_ne_nil hf.symm
    · rw [Segment.tokens, hl.forest, Forest.segments_push]
termination_by ts.length

/-- The segments of the forest are those that counting parentheses finds. -/
theorem segments_tokens (ts : List Token) :
    (Forest.ofTokens ts).segments.map Segment.tokens = Segmentation.cut (beforeEnd ts) := by
  induction ts using segments_induction with
  | done ts hd hs =>
    rw [hd, hs]
    simp [Segmentation.cut]
  | step s post hne hf hs ih =>
    obtain ⟨t, rest, he⟩ := List.exists_cons_of_ne_nil hne
    rw [hs, List.map_cons, ih, he, Segmentation.cut, ← he, hf]

end Lisplet
