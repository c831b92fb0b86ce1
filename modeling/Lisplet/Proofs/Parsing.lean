import Lisplet.Parser
import Lisplet.Proofs.Reading

/-! The parser reads the trees of its tokens. Wherever a tree begins at the cursor, the parser takes
exactly the tokens of that tree: it gives the value of the tree, or reports the one problem of the
tree and stands behind it all the same. -/

namespace Lisplet

open Lisplet.Parser (skip)

mutual

/-- The tokens begin with those of a tree, and the rest comes after it. `finish` is where the end
of input stands. -/
inductive Opens (finish : Span) : List Token → Tree → List Token → Prop where
  | atom (a : Atom) (span : Span) (post : List Token) :
      Opens finish (⟨.atom a, span⟩ :: post) (.atom a span) post
  | marked (m : Mark) (span : Span) (a : Atom) (place : Span) (post : List Token) :
      Opens finish (⟨.mark m, span⟩ :: ⟨.atom a, place⟩ :: post)
        (.dangling m span ⟨.atom a, place⟩) post
  | lone (m : Mark) (span : Span) (post : List Token)
      (paren : (post.headD ⟨.eof, finish⟩).kind ≠ .lparen)
      (atom : ∀ a, (post.headD ⟨.eof, finish⟩).kind ≠ .atom a) :
      Opens finish (⟨.mark m, span⟩ :: post) (.dangling m span (post.headD ⟨.eof, finish⟩)) post
  | list (paren : Span) {ts items close post} : Fills finish ts items close post →
      Opens finish (⟨.lparen, paren⟩ :: ts) (.group none paren items close) post
  | quoted (m : Mark) (span paren : Span) {ts items close post} :
      Fills finish ts items close post →
      Opens finish (⟨.mark m, span⟩ :: ⟨.lparen, paren⟩ :: ts)
        (.group (some (m, span)) paren items close) post

/-- The tokens begin inside a list: with the items that are left of it, and then its closing
parenthesis, unless the input ends before. -/
inductive Fills (finish : Span) :
    List Token → List Tree → Option Span → List Token → Prop where
  | closed (close : Span) (post : List Token) :
      Fills finish (⟨.rparen, close⟩ :: post) [] (some close) post
  | ended {post : List Token} : beforeEnd post = [] → Fills finish post [] none post
  | item {ts mid post t items close} : Opens finish ts t mid → Fills finish mid items close post →
      Fills finish ts (t :: items) close post

end

variable {finish : Span}

mutual

theorem Opens.tokens {ts post : List Token} {t : Tree} :
    Opens finish ts t post → ts = t.tokens ++ post
  | .atom a span post => by simp [Tree.tokens]
  | .marked m span a place post => by simp [Tree.tokens]
  | .lone m span post _ atom => by
    rw [Tree.tokens]
    · rfl
    · intro a place he
      exact atom a (by rw [he])
  | .list paren h => by
    rw [Tree.tokens, h.tokens]
    simp
  | .quoted m span paren h => by
    rw [Tree.tokens, h.tokens]
    simp

theorem Fills.tokens {ts post : List Token} {items : List Tree} {close : Option Span} :
    Fills finish ts items close post → ts = Tree.tokensOfAll items ++ closeTokens close ++ post
  | .closed close post => rfl
  | .ended _ => rfl
  | .item ho hf => by
    rw [Tree.tokensOfAll, ho.tokens, hf.tokens]
    simp

end

variable {ts mid post : List Token} {t : Tree} {items : List Tree} {close : Option Span}

theorem Opens.length_lt (h : Opens finish ts t post) : post.length < ts.length := by
  have hp := List.length_pos_iff.mpr t.tokens_ne_nil
  rw [h.tokens, List.length_append]
  omega

theorem Fills.length_le (h : Fills finish ts items close post) : post.length ≤ ts.length := by
  rw [h.tokens, List.length_append]
  exact Nat.le_add_left _ _

theorem Opens.headD (h : Opens finish ts t post) (d : Token) : ts.headD d = t.front := by
  cases h <;> rfl

theorem Fills.cons_inv (h : Fills finish ts (t :: items) close post) :
    ∃ mid, Opens finish ts t mid ∧ Fills finish mid items close post := by
  cases h with
  | item ho hf => exact ⟨_, ho, hf⟩

theorem kind_headD_of_beforeEnd (h : beforeEnd ts = []) :
    (ts.headD ⟨.eof, finish⟩).kind = .eof := by
  match ts with
  | [] => rfl
  | t :: rest =>
    by_cases he : t.kind = .eof
    · exact he
    · simp [he] at h

/-- A list that is not closed leaves nothing behind it. -/
theorem Fills.beforeEnd_eq_nil (h : Fills finish ts items none post) : beforeEnd post = [] := by
  generalize hc : (none : Option Span) = close at h
  induction items generalizing ts with
  | nil =>
    cases h with
    | closed => cases hc
    | ended h => exact h
  | cons t rest ih =>
    cases h with
    | item _ hf => exact ih hf

/-- Somewhere a list ends. -/
theorem exists_opens (finish : Span) (ts : List Token)
    (h : ∀ us, us.length < ts.length → ∃ items close post, Fills finish us items close post) :
    beforeEnd ts = [] ∨ (∃ span rest, ts = ⟨.rparen, span⟩ :: rest) ∨
      ∃ t post, Opens finish ts t post := by
  match ts with
  | [] => exact Or.inl rfl
  | ⟨.eof, span⟩ :: rest => exact Or.inl (beforeEnd_eof span rest)
  | ⟨.rparen, span⟩ :: rest => exact Or.inr (Or.inl ⟨span, rest, rfl⟩)
  | ⟨.atom a, span⟩ :: rest => exact Or.inr (Or.inr ⟨_, rest, .atom a span rest⟩)
  | ⟨.lparen, paren⟩ :: rest =>
    obtain ⟨items, close, post, hf⟩ := h rest (by simp)
    exact Or.inr (Or.inr ⟨_, post, .list paren hf⟩)
  | [⟨.mark m, span⟩] => exact Or.inr (Or.inr ⟨_, [], .lone m span [] (by simp) (by simp)⟩)
  | ⟨.mark m, span⟩ :: ⟨kind, place⟩ :: rest =>
    cases kind with
    | atom a => exact Or.inr (Or.inr ⟨_, rest, .marked m span a place rest⟩)
    | lparen =>
      obtain ⟨items, close, post, hf⟩ := h rest (by simp only [List.length_cons]; omega)
      exact Or.inr (Or.inr ⟨_, post, .quoted m span place hf⟩)
    | _ => exact Or.inr (Or.inr ⟨_, _, .lone m span _ (by simp) (by simp)⟩)

theorem exists_fills (finish : Span) (ts : List Token) :
    ∃ items close post, Fills finish ts items close post := by
  rcases exists_opens finish ts fun us _ => exists_fills finish us with
    hd | ⟨span, rest, rfl⟩ | ⟨t, mid, ho⟩
  · exact ⟨[], none, ts, .ended hd⟩
  · exact ⟨[], some span, rest, .closed span rest⟩
  · have hlt := ho.length_lt
    obtain ⟨items, close, post, hf⟩ := exists_fills finish mid
    exact ⟨t :: items, close, post, .item ho hf⟩
termination_by ts.length

/-! ### Grouping -/

/-- The end of input after the last token adds nothing. -/
theorem beforeEnd_append_eof (ts : List Token) (span : Span) :
    beforeEnd (ts ++ [⟨.eof, span⟩]) = beforeEnd ts := by
  induction ts with
  | nil => simp
  | cons t rest ih =>
    by_cases h : t.kind = .eof
    · simp [beforeEnd, h]
    · simpa [h] using ih

/-- The forest of the tokens of a list, from some item on. -/
def Forest.within (items : List Tree) : Option Span → Forest → Forest
  | some close, outer => .closing items close outer
  | none, _ => .ending items

theorem Forest.push_within (t : Tree) (items : List Tree) (close : Option Span) (outer : Forest) :
    (within items close outer).push t = within (t :: items) close outer := by
  cases close <;> rfl

theorem Fills.wrap_within (h : Fills finish ts items close post) (mark : Option (Mark × Span))
    (paren span : Span) :
    (Forest.within items close (Forest.ofTokens (post ++ [⟨.eof, span⟩]))).wrap mark paren =
      (Forest.ofTokens (post ++ [⟨.eof, span⟩])).push (.group mark paren items close) := by
  cases close with
  | some close => rfl
  | none =>
    have hd := h.beforeEnd_eq_nil
    rw [← beforeEnd_append_eof post span] at hd
    rw [ofTokens_of_beforeEnd hd]
    rfl

mutual

/-- The tree at the cursor is the first tree of the forest. -/
theorem Opens.forest {ts post : List Token} {t : Tree} : Opens finish ts t post →
    Forest.ofTokens (ts ++ [⟨.eof, finish⟩]) = (Forest.ofTokens (post ++ [⟨.eof, finish⟩])).push t
  | .atom a span post => by simp [Forest.ofTokens]
  | .marked m span a place post => by simp [Forest.ofTokens]
  | .lone m span post paren atom => by
    match post with
    | [] => simp [Forest.ofTokens]
    | ⟨kind, place⟩ :: rest =>
      cases kind with
      | lparen => exact (paren rfl).elim
      | atom a => exact (atom a rfl).elim
      | _ => simp [Forest.ofTokens]
  | .list paren h => by
    rw [List.cons_append, Forest.ofTokens, h.forest, h.wrap_within]
  | .quoted m span paren h => by
    rw [List.cons_append, List.cons_append, Forest.ofTokens, h.forest, h.wrap_within]

theorem Fills.forest {ts post : List Token} {items : List Tree} {close : Option Span} :
    Fills finish ts items close post → Forest.ofTokens (ts ++ [⟨.eof, finish⟩]) =
      Forest.within items close (Forest.ofTokens (post ++ [⟨.eof, finish⟩]))
  | .closed close post => by rw [List.cons_append, Forest.ofTokens, Forest.within]
  | .ended h => by
    rw [← beforeEnd_append_eof _ finish] at h
    rw [ofTokens_of_beforeEnd h, Forest.within]
  | .item ho hf => by rw [ho.forest, hf.forest, Forest.push_within]

end

/-! ### Skipping -/

theorem skip_of_beforeEnd (h : beforeEnd ts = []) (depth : Nat) (last : Span) :
    skip depth last ts = (last, ts) := by
  match ts with
  | [] => rw [skip]
  | ⟨kind, span⟩ :: rest =>
    cases kind with
    | eof => rw [skip]
    | _ => simp at h

mutual

/-- A tree is skipped with all of its parentheses. -/
theorem Opens.skip_eq {ts post : List Token} {t : Tree} (depth : Nat) (last : Span) :
    Opens finish ts t post → ∃ next, skip depth last ts = skip depth next post
  | .atom a span post => ⟨span, by simp [skip]⟩
  | .marked m span a place post => ⟨place, by simp [skip]⟩
  | .lone m span post _ _ => ⟨span, by simp [skip]⟩
  | .list paren h => by
    rw [skip]
    exact h.skip_succ depth paren
  | .quoted m span paren h => by
    obtain ⟨next, hn⟩ := h.skip_succ depth paren
    exact ⟨next, by simp [skip, hn]⟩

/-- What is left of a list is skipped with the parenthesis that closes it. -/
theorem Fills.skip_succ {ts post : List Token} {items : List Tree} {close : Option Span}
    (depth : Nat) (last : Span) :
    Fills finish ts items close post → ∃ next, skip (depth + 1) last ts = skip depth next post
  | .closed close post => ⟨close, by rw [skip]⟩
  | .ended h => ⟨last, by rw [skip_of_beforeEnd h, skip_of_beforeEnd h]⟩
  | .item ho hf => by
    obtain ⟨next, hn⟩ := ho.skip_eq (depth + 1) last
    rw [hn]
    exact hf.skip_succ depth next

end

/-- From inside a list, skipping ends behind it. -/
theorem Fills.skip_zero (h : Fills finish ts items close post) (last : Span) :
    ∃ next, skip 0 last ts = (next, post) := by
  induction items generalizing ts last with
  | nil =>
    cases h with
    | closed close => exact ⟨close, by rw [skip]⟩
    | ended h => exact ⟨last, skip_of_beforeEnd h 0 last⟩
  | cons t rest ih =>
    cases h with
    | item ho hf =>
      obtain ⟨next, hn⟩ := ho.skip_eq 0 last
      rw [hn]
      exact ih hf next

/-! ### Walks -/

namespace Parse

variable {α β : Type} {p q : Parser} {dest : List Token}

/-- The walk from `p` has this result. With a value it ends before `mid`, and the span is that of
the token passed last; with a problem, which is all that it reports, it ends before `post`. -/
def Does (x : Parse α) (p : Parser) (r : Except Problem (α × Span)) (mid post : List Token) :
    Prop :=
  match r with
  | .ok (a, last) => x p = some (some a, { p with previous := last, ahead := mid })
  | .error problem => ∃ last, x p =
      some (none, { p with previous := last, ahead := post, problems := p.problems ++ [problem] })

/-- The same, whatever token was passed last. -/
def Reads (x : Parse α) (p : Parser) (r : Except Problem α) (mid post : List Token) : Prop :=
  ∃ last, Does x p (r.map (·, last)) mid post

section

variable {x : Parse α} {y : Parse β} {f : α → Parse β} {r : Except Problem (α × Span)}

/-- A walk that goes on as another one from further ahead. -/
theorem Does.of_eq {y : Parse α} (he : x p = y q) (hf : q.finish = p.finish)
    (hp : q.problems = p.problems) (h : Does y q r mid post) : Does x p r mid post := by
  obtain ⟨previous, ahead, finish, problems⟩ := q
  obtain rfl : finish = p.finish := hf
  obtain rfl : problems = p.problems := hp
  cases r with
  | error problem =>
    obtain ⟨last, h⟩ := h
    exact ⟨last, he.trans h⟩
  | ok result => exact he.trans h

theorem Reads.of_eq {y : Parse α} {r : Except Problem α} (he : x p = y q)
    (hf : q.finish = p.finish) (hp : q.problems = p.problems) (h : Reads y q r mid post) :
    Reads x p r mid post := by
  obtain ⟨last, h⟩ := h
  exact ⟨last, h.of_eq he hf hp⟩

theorem bind_of_ok {a : α} (h : x p = some (some a, q)) : (x >>= f) p = f a q := by
  show Parse.bind x f p = f a q
  rw [Parse.bind, h]

theorem bind_of_missing (h : x p = some (none, q)) : (x >>= f) p = some (none, q) := by
  show Parse.bind x f p = some (none, q)
  rw [Parse.bind, h]

theorem Does.bind {g : α × Span → Except Problem (β × Span)} (h : Does x p r mid post)
    (hf : ∀ a last, r = .ok (a, last) →
      Does (f a) { p with previous := last, ahead := mid } (g (a, last)) dest post) :
    Does (x >>= f) p (r >>= g) dest post := by
  cases r with
  | error problem =>
    obtain ⟨last, h⟩ := h
    exact ⟨last, bind_of_missing h⟩
  | ok result => exact (hf result.1 result.2 rfl).of_eq (bind_of_ok h) rfl rfl

theorem Does.bind_reads {g : α × Span → Except Problem β} (h : Does x p r mid post)
    (hf : ∀ a last, r = .ok (a, last) →
      Reads (f a) { p with previous := last, ahead := mid } (g (a, last)) dest post) :
    Reads (x >>= f) p (r >>= g) dest post := by
  cases r with
  | error problem =>
    obtain ⟨last, h⟩ := h
    exact ⟨last, last, bind_of_missing h⟩
  | ok result => exact (hf result.1 result.2 rfl).of_eq (bind_of_ok h) rfl rfl

variable {s : Except Problem α}

theorem Reads.bind_does {g : α → Except Problem (β × Span)} (h : Reads x p s mid post)
    (hf : ∀ a last, s = .ok a →
      Does (f a) { p with previous := last, ahead := mid } (g a) dest post) :
    Does (x >>= f) p (s >>= g) dest post := by
  obtain ⟨last, h⟩ := h
  cases s with
  | error problem =>
    obtain ⟨next, h⟩ := h
    exact ⟨next, bind_of_missing h⟩
  | ok a => exact (hf a last rfl).of_eq (bind_of_ok h) rfl rfl

theorem Reads.bind {g : α → Except Problem β} (h : Reads x p s mid post)
    (hf : ∀ a last, s = .ok a →
      Reads (f a) { p with previous := last, ahead := mid } (g a) dest post) :
    Reads (x >>= f) p (s >>= g) dest post := by
  obtain ⟨last, h⟩ := h
  cases s with
  | error problem =>
    obtain ⟨next, h⟩ := h
    exact ⟨last, next, bind_of_missing h⟩
  | ok a => exact (hf a last rfl).of_eq (bind_of_ok h) rfl rfl

/-- Where a walk fails inside a list, recovering leaves the list. -/
theorem Does.recovering (h : Does x p r dest mid) (hf : Fills p.finish mid items close post) :
    Does x.recovering p r dest post := by
  cases r with
  | error problem =>
    obtain ⟨last, h⟩ := h
    obtain ⟨next, hn⟩ := hf.skip_zero last
    refine ⟨next, ?_⟩
    rw [Parse.recovering, h]
    simp only [Parser.recover, hn]
  | ok result =>
    have hx : x p = some (some result.1, _) := h
    show x.recovering p = _
    rw [Parse.recovering, hx]

theorem Reads.recovering (h : Reads x p s dest mid) (hf : Fills p.finish mid items close post) :
    Reads x.recovering p s dest post := by
  obtain ⟨last, h⟩ := h
  exact ⟨last, h.recovering hf⟩

end

theorem does_pure (a : α) : Does (pure a) p (.ok (a, p.previous)) p.ahead post := rfl

theorem reads_pure (a : α) : Reads (pure a) p (.ok a) p.ahead post := ⟨p.previous, rfl⟩

theorem does_fail (problem : Problem) :
    Does (fail problem : Parse α) p (.error problem) mid p.ahead := ⟨p.previous, rfl⟩

theorem does_misplaced (complaint : Token.Kind → Complaint) :
    Does (misplaced complaint : Parse α) p
      (.error ⟨complaint p.current.kind, p.current.span⟩) mid p.ahead := ⟨p.previous, rfl⟩

theorem does_malformed (paren : Span) (complaint : Complaint) :
    Does (malformed paren complaint : Parse α) p
      (.error ⟨complaint, paren.merge p.previous⟩) mid p.ahead := ⟨p.previous, rfl⟩

theorem pass_bind {t : Token} {rest : List Token} (f : Span → Parse α) (h : p.ahead = t :: rest) :
    (pass >>= f) p = f t.span { p with previous := t.span, ahead := rest } := by
  obtain ⟨previous, ahead, finish, problems⟩ := p
  obtain rfl : ahead = t :: rest := h
  rfl

/-! ### Lists -/

theorem current_bind (f : Token → Parse α) : (current >>= f) p = f p.current p := rfl

theorem current_of_opens (h : Opens p.finish p.ahead t mid) : p.current = t.front := h.headD _

variable {paren : Span} {steps bound : Nat}

theorem untilClose_of_opens (item : Parse α) (h : Opens p.finish p.ahead t mid) :
    untilClose item paren (steps + 1) p =
      (item >>= fun a => untilClose item paren steps >>= fun rest => pure (a :: rest)) p := by
  rw [untilClose, current_bind, current_of_opens h]
  match t with
  | .atom _ _ | .dangling _ _ _ | .group none _ _ _ | .group (some _) _ _ _ => rfl

theorem does_untilClose_nil (item : Parse α) (h : Fills p.finish p.ahead [] close post) :
    Does (untilClose item paren (steps + 1)) p
      ((Form.closing paren close).map ([], ·)) post post := by
  obtain ⟨previous, ahead, finish, problems⟩ := p
  cases h with
  | closed close => rfl
  | ended h =>
    refine Does.of_eq ?_ rfl rfl (does_fail ⟨.unclosed paren, paren⟩)
    rw [untilClose, current_bind, Parser.current, kind_headD_of_beforeEnd h]
    rfl

/-- The items of a list, each read as its tree is, and the parenthesis that closes the list. -/
theorem does_untilClose {item : Parse α} {read : Tree → Except Problem α}
    (hi : ∀ q t mid rest, Opens q.finish q.ahead t mid → Fills q.finish mid rest close post →
      q.ahead.length < bound → Reads item q (read t) mid post)
    (h : Fills p.finish p.ahead items close post) (hs : p.ahead.length < steps)
    (hb : p.ahead.length < bound) :
    Does (untilClose item paren steps) p
      (items.mapM read >>= fun as => (Form.closing paren close).map (as, ·)) post post := by
  induction items generalizing p steps with
  | nil =>
    obtain ⟨steps, rfl⟩ := Nat.exists_eq_add_one_of_ne_zero (Nat.ne_zero_of_lt hs)
    exact does_untilClose_nil item h
  | cons t rest ih =>
    obtain ⟨steps, rfl⟩ := Nat.exists_eq_add_one_of_ne_zero (Nat.ne_zero_of_lt hs)
    obtain ⟨mid, ho, hf⟩ := h.cons_inv
    have hlt := ho.length_lt
    have hm : mid.length < steps := by omega
    refine Does.of_eq (untilClose_of_opens item ho) rfl rfl ?_
    have hr : ((t :: rest).mapM read >>= fun as => (Form.closing paren close).map (as, ·)) =
        read t >>= fun a =>
          (rest.mapM read >>= fun as => (Form.closing paren close).map (as, ·)) >>= fun s =>
            .ok (a :: s.1, s.2) := by
      rw [List.mapM_cons]
      cases read t with
      | error problem => rfl
      | ok a =>
        cases rest.mapM read with
        | error problem => rfl
        | ok as => cases close <;> rfl
    rw [hr]
    refine (hi p t mid rest ho hf hb).bind_does fun a last _ => ?_
    refine Does.bind (ih hf hm (by show mid.length < bound; omega)) fun as next _ => ?_
    exact does_pure (a :: as)

/-- Where nothing fits, the next token is the problem, or the end of input is. -/
theorem does_refuse (complaint : Token.Kind → Complaint)
    (h : Fills p.finish p.ahead items close post) :
    Does (refuse paren complaint : Parse α) p (Form.upcoming paren close items >>= fun found =>
      .error ⟨complaint found.kind, found.span⟩) mid post := by
  have hm : Does (misplaced complaint : Parse α).recovering p
      (.error ⟨complaint p.current.kind, p.current.span⟩) mid post :=
    (does_misplaced complaint).recovering h
  match items with
  | t :: rest =>
    obtain ⟨_, ho, _⟩ := h.cons_inv
    rw [current_of_opens ho] at hm
    refine hm.of_eq ?_ rfl rfl
    rw [refuse, current_bind, current_of_opens ho]
    match t with
    | .atom _ _ | .dangling _ _ _ | .group none _ _ _ | .group (some _) _ _ _ => rfl
  | [] =>
    obtain ⟨previous, ahead, finish, problems⟩ := p
    cases h with
    | closed close => exact hm
    | ended h =>
      refine Does.of_eq ?_ rfl rfl (does_fail ⟨.unclosed paren, paren⟩)
      rw [refuse, current_bind, Parser.current, kind_headD_of_beforeEnd h]
      rfl

theorem reads_refuse (complaint : Token.Kind → Complaint)
    (h : Fills p.finish p.ahead items close post) :
    Reads (refuse paren complaint : Parse α) p (Form.upcoming paren close items >>= fun found =>
      .error ⟨complaint found.kind, found.span⟩) mid post := by
  have hd : Does (refuse paren complaint : Parse α) p _ mid post := does_refuse complaint h
  refine ⟨p.previous, ?_⟩
  cases hu : Form.upcoming paren close items with
  | error problem =>
    rw [hu] at hd
    exact hd
  | ok found =>
    rw [hu] at hd
    exact hd

/-! ### Names -/

/-- The name that an item of a list of symbols stands for. -/
def symbolOf (form : Name) : Tree → Except Problem Name
  | .atom (.sym name) _ => .ok name
  | t => .error ⟨.parameterName form t.front.kind, t.front.span⟩

theorem symbols_eq_mapM (form : Name) (paren : Span) (close : Option Span) (items : List Tree) :
    Form.symbols form paren close items =
      items.mapM (symbolOf form) >>= fun names => (Form.closing paren close).map (names, ·) := by
  fun_induction Form.symbols form paren close items with
  | case1 => rfl
  | case2 name span rest ih =>
    rw [List.mapM_cons, symbolOf, ih]
    cases rest.mapM (symbolOf form) with
    | error problem => rfl
    | ok names => cases close <;> rfl
  | case3 t rest hne =>
    rw [List.mapM_cons, symbolOf]
    · rfl
    · exact hne

theorem ahead_of_atom {a : Atom} {span : Span} (h : Opens p.finish p.ahead (.atom a span) mid) :
    p.ahead = ⟨.atom a, span⟩ :: mid := by
  rw [h.tokens, Tree.tokens, List.singleton_append]

/-- After the last item comes the closing parenthesis or the end of input. -/
theorem current_of_fills_nil (h : Fills p.finish p.ahead [] close post) :
    p.current.kind = .rparen ∨ p.current.kind = .eof := by
  obtain ⟨previous, ahead, finish, problems⟩ := p
  cases h with
  | closed => exact Or.inl rfl
  | ended h => exact Or.inr (kind_headD_of_beforeEnd h)

variable {form : Name}

theorem reads_symbol (ho : Opens p.finish p.ahead t mid) (hf : Fills p.finish mid items close post) :
    Reads (symbol form) p (symbolOf form t) mid post := by
  have hm : Does (misplaced (.parameterName form) : Parse Name).recovering p
      (.error ⟨.parameterName form p.current.kind, p.current.span⟩) mid post :=
    (does_misplaced _).recovering (.item ho hf)
  rw [current_of_opens ho] at hm
  have hc : symbol form p = _ := current_bind _
  rw [current_of_opens ho] at hc
  match t with
  | .dangling _ _ _ | .group none _ _ _ | .group (some _) _ _ _ =>
    exact ⟨p.previous, hm.of_eq hc rfl rfl⟩
  | .atom a span =>
    cases a with
    | sym name =>
      exact (reads_pure name).of_eq (hc.trans (pass_bind _ (ahead_of_atom ho))) rfl rfl
    | _ => exact ⟨p.previous, hm.of_eq hc rfl rfl⟩

theorem does_symbolList {ts : List Token} {inner : Span} (h : Fills p.finish ts items close post)
    (ha : p.ahead = ⟨.lparen, inner⟩ :: ts) (hs : p.ahead.length ≤ steps) :
    Does (symbolList steps form) p (Form.symbols form inner close items) post post := by
  rw [symbols_eq_mapM]
  refine Does.of_eq (pass_bind _ ha) rfl rfl ?_
  have hl : ts.length < steps := by
    rw [ha, List.length_cons] at hs
    omega
  exact does_untilClose (fun q t mid rest ho hf _ => reads_symbol ho hf) h hl hl

theorem ahead_of_list {inner : Span} (h : Opens p.finish p.ahead (.group none inner items close) mid) :
    ∃ ts, p.ahead = ⟨.lparen, inner⟩ :: ts ∧ Fills p.finish ts items close mid := by
  generalize p.ahead = ts at h
  cases h with
  | list _ hf => exact ⟨_, rfl, hf⟩

/-- What a definition binds stands in the first item. -/
theorem reads_target (h : Fills p.finish p.ahead items close post) (hs : p.ahead.length ≤ steps) :
    ∃ mid, Fills p.finish mid (items.drop 1) close post ∧ mid.length ≤ p.ahead.length ∧
      Reads (target steps form paren) p (Form.target form paren close items) mid post := by
  have hr (mid : List Token) :
      Reads (refuse paren (.bindingTarget form) : Parse Name) p _ mid post := reads_refuse _ h
  have hc : target steps form paren p = _ := current_bind _
  match items with
  | [] =>
    refine ⟨p.ahead, h, Nat.le_refl _, ?_⟩
    rcases current_of_fills_nil h with hk | hk
    all_goals
      rw [hk] at hc
      exact (hr _).of_eq hc rfl rfl
  | t :: rest =>
    obtain ⟨mid, ho, hf⟩ := h.cons_inv
    refine ⟨mid, hf, Nat.le_of_lt ho.length_lt, ?_⟩
    rw [current_of_opens ho] at hc
    match t with
    | .dangling _ _ _ | .group (some _) _ _ _ => exact (hr mid).of_eq hc rfl rfl
    | .group none inner group last =>
      obtain ⟨ts, ha, hg⟩ := ahead_of_list ho
      refine Reads.of_eq hc rfl rfl ?_
      refine Does.bind_reads ((does_symbolList hg ha hs).recovering hf) fun names span _ => ?_
      match names with
      | [name] => exact reads_pure name
      | [] | _ :: _ :: _ => exact ⟨span, (does_malformed paren _).recovering hf⟩
    | .atom a span =>
      cases a with
      | sym name =>
        exact (reads_pure name).of_eq (hc.trans (pass_bind _ (ahead_of_atom ho))) rfl rfl
      | _ => exact (hr mid).of_eq hc rfl rfl

/-- The parameters of a function are the first item. -/
theorem does_parameters (h : Fills p.finish p.ahead items close post)
    (hs : p.ahead.length ≤ steps) :
    ∃ mid, Fills p.finish mid (items.drop 1) close post ∧ mid.length ≤ p.ahead.length ∧
      Does (parameters steps form paren) p (Form.parameters form paren close items) mid post := by
  have hr (mid : List Token) :
      Does (refuse paren (.parameterList form) : Parse (List Name)) p _ mid post := does_refuse _ h
  have hc : parameters steps form paren p = _ := current_bind _
  match items with
  | [] =>
    refine ⟨p.ahead, h, Nat.le_refl _, ?_⟩
    rcases current_of_fills_nil h with hk | hk
    all_goals
      rw [hk] at hc
      exact (hr _).of_eq hc rfl rfl
  | t :: rest =>
    obtain ⟨mid, ho, hf⟩ := h.cons_inv
    refine ⟨mid, hf, Nat.le_of_lt ho.length_lt, ?_⟩
    rw [current_of_opens ho] at hc
    match t with
    | .atom _ _ | .dangling _ _ _ | .group (some _) _ _ _ => exact (hr mid).of_eq hc rfl rfl
    | .group none inner group last =>
      obtain ⟨ts, ha, hg⟩ := ahead_of_list ho
      exact ((does_symbolList hg ha hs).recovering hf).of_eq hc rfl rfl

/-! ### Forms -/

/-- The walk reads the trees before which it starts, with less than `bound` tokens ahead. -/
def Follows (datum : Parse Value) (bound : Nat) : Prop :=
  ∀ p t mid, Opens p.finish p.ahead t mid → p.ahead.length < bound → Reads datum p t.read mid mid

theorem readAfter_zero (items : List Tree) : Tree.readAfter 0 items = items.mapM Tree.read := by
  induction items with
  | nil => rw [Tree.readAfter]; rfl
  | cons t rest ih => rw [Tree.readAfter, ih, List.mapM_cons]; rfl

theorem readAfter_one (items : List Tree) :
    Tree.readAfter 1 items = Tree.readAfter 0 (items.drop 1) := by
  cases items with
  | nil => rw [Tree.readAfter, List.drop_nil, Tree.readAfter]
  | cons t rest => rw [Tree.readAfter, List.drop_one, List.tail_cons]

section

variable {datum : Parse Value} (hd : Follows datum steps)
include hd

theorem does_cells (h : Fills p.finish p.ahead items close post) (hs : p.ahead.length < steps) :
    Does (cells datum steps paren) p (Tree.readAfter 0 items >>= fun values =>
      (Form.closing paren close).map (values, ·)) post post := by
  rw [readAfter_zero]
  exact does_untilClose (fun q t mid rest ho hf hq => (hd q t mid ho hq).recovering hf) h hs hs

end

/-- What is made of the items of a list once it is closed. -/
theorem Does.bind_closing {x : Parse (List α)} {f : List α → Parse β}
    {r : Except Problem (List α)} {judge : List α → Span → Except Problem β}
    (h : Does x p (r >>= fun as => (Form.closing paren close).map (as, ·)) post post)
    (hf : ∀ as last,
      Reads (f as) { p with previous := last, ahead := post } (judge as last) post post) :
    Reads (x >>= f) p (r >>= fun as => Form.closing paren close >>= judge as) post post := by
  have hr : (r >>= fun as => Form.closing paren close >>= judge as) =
      (r >>= fun as => (Form.closing paren close).map (as, ·)) >>= fun s => judge s.1 s.2 := by
    cases r with
    | error problem => rfl
    | ok as => cases close <;> rfl
  rw [hr]
  exact h.bind_reads fun as last _ => hf as last

section

variable {datum : Parse Value} (hd : Follows datum steps)
include hd

theorem reads_body (h : Fills p.finish p.ahead items close post) (hs : p.ahead.length < steps) :
    Reads (body datum steps form paren) p
      (Tree.readAfter 0 items >>= Form.body form paren close) post post := by
  refine (does_cells hd h hs).bind_closing fun values last => ?_
  match values with
  | [value] => exact reads_pure value
  | [] | _ :: _ :: _ => exact ⟨last, does_malformed paren _⟩

theorem reads_branch (h : Fills p.finish p.ahead items close post) (hs : p.ahead.length < steps) :
    Reads (branch datum steps paren) p
      (Tree.readAfter 0 items >>= Form.branch paren close) post post := by
  refine (does_cells hd h hs).bind_closing fun values last => ?_
  match values with
  | [clause, yes, no] => exact reads_pure _
  | [] | [_] | [_, _] | _ :: _ :: _ :: _ :: _ => exact ⟨last, does_malformed paren _⟩

theorem reads_logic (op : Connective) (h : Fills p.finish p.ahead items close post)
    (hs : p.ahead.length < steps) :
    Reads (logic datum steps op paren) p
      (Tree.readAfter 0 items >>= Form.logic op paren close) post post := by
  refine (does_cells hd h hs).bind_closing fun values last => ?_
  match values with
  | [] => exact ⟨last, does_malformed paren _⟩
  | _ :: _ => exact reads_pure _

/-- A body, and what is made of it. -/
theorem reads_body_bind (build : Value → Value) (h : Fills p.finish p.ahead items close post)
    (hs : p.ahead.length < steps) :
    Reads (body datum steps form paren >>= fun value => pure (build value)) p (do
      let values ← Tree.readAfter 0 items
      let value ← Form.body form paren close values
      .ok (build value)) post post := by
  rw [← bind_assoc]
  exact Reads.bind (reads_body hd h hs) fun value _ _ => reads_pure (build value)

theorem reads_definition (h : Fills p.finish p.ahead items close post)
    (hs : p.ahead.length < steps) :
    Reads (definition datum steps form paren) p (do
      let name ← Form.target form paren close items
      let values ← Tree.readAfter 1 items
      let value ← Form.body form paren close values
      .ok (.define name value)) post post := by
  obtain ⟨mid, hf, hl, ht⟩ := reads_target h (Nat.le_of_lt hs)
  rw [readAfter_one]
  exact ht.bind fun name _ _ => reads_body_bind hd (.define name) hf (Nat.lt_of_le_of_lt hl hs)

theorem reads_function (h : Fills p.finish p.ahead items close post)
    (hs : p.ahead.length < steps) :
    Reads (function datum steps paren) p (do
      let (name, formals) ← Form.signature paren close items
      let values ← Tree.readAfter 1 items
      let value ← Form.body SpecialForm.function.name paren close values
      .ok (.define name (.lambda formals value []))) post post := by
  obtain ⟨mid, hf, hl, hp⟩ := does_parameters h (Nat.le_of_lt hs)
  rw [readAfter_one, Form.signature, bind_assoc]
  refine hp.bind_reads fun names last _ => ?_
  cases names with
  | nil => exact ⟨last, (does_malformed paren _).recovering hf⟩
  | cons name formals =>
    cases formals with
    | nil => exact ⟨last, (does_malformed paren _).recovering hf⟩
    | cons formal formals =>
      exact reads_body_bind hd (fun value => .define name (.lambda (formal :: formals) value [])) hf
        (Nat.lt_of_le_of_lt hl hs)

theorem reads_lambda (h : Fills p.finish p.ahead items close post)
    (hs : p.ahead.length < steps) :
    Reads (lambda datum steps paren) p (do
      let formals ← Form.formals paren close items
      let values ← Tree.readAfter 1 items
      let value ← Form.body SpecialForm.lambda.name paren close values
      .ok (.lambda formals value [])) post post := by
  obtain ⟨mid, hf, hl, hp⟩ := does_parameters h (Nat.le_of_lt hs)
  rw [readAfter_one, Form.formals, bind_assoc]
  refine hp.bind_reads fun names last _ => ?_
  cases names with
  | nil => exact ⟨last, (does_malformed paren _).recovering hf⟩
  | cons formal formals =>
    exact reads_body_bind hd (fun value => .lambda (formal :: formals) value []) hf
      (Nat.lt_of_le_of_lt hl hs)

end

theorem special?_current (h : Fills p.finish p.ahead items close post) :
    special? .plain p.current.kind = Form.special? items := by
  match items with
  | [] =>
    rcases current_of_fills_nil h with hk | hk
    all_goals
      rw [hk]
      rfl
  | t :: rest =>
    obtain ⟨mid, ho, hf⟩ := h.cons_inv
    rw [current_of_opens ho]
    match t with
    | .dangling _ _ _ | .group none _ _ _ | .group (some _) _ _ _ => rfl
    | .atom a span => cases a <;> rfl

/-- The definition that an item of a group of bindings stands for. -/
def bindingOf : Tree → Except Problem Value
  | .group none paren (.atom (.sym name) _ :: items) close =>
    Tree.readAfter 0 items >>= Form.binding name paren close
  | .group none paren items close =>
    Form.upcoming paren close items >>= fun found => .error ⟨.letName found.kind, found.span⟩
  | t => .error ⟨.letEntry t.front.kind, t.front.span⟩

theorem readBindings_zero (items : List Tree) :
    Tree.readBindings 0 items = items.mapM bindingOf := by
  induction items with
  | nil => rw [Tree.readBindings]; rfl
  | cons t rest ih =>
    rw [List.mapM_cons, ← ih]
    fun_cases bindingOf t with
    | case1 paren name span items close =>
      rw [Tree.readBindings, bind_assoc]
      rfl
    | case2 paren items close hne =>
      rw [Tree.readBindings, bind_assoc]
      · rfl
      · exact hne
    | case3 t hb hg =>
      rw [Tree.readBindings]
      · rfl
      · exact hb
      · exact hg

section

variable {datum : Parse Value} (hd : Follows datum steps)
include hd

theorem reads_binding (h : Fills p.finish p.ahead items close post)
    (hs : p.ahead.length < steps) :
    Reads (binding datum steps paren) p (bindingOf (.group none paren items close)) post post := by
  have hr : Reads (refuse paren .letName : Parse Value) p _ post post := reads_refuse _ h
  have hc : binding datum steps paren p = _ := current_bind _
  match items with
  | [] =>
    rcases current_of_fills_nil h with hk | hk
    all_goals
      rw [hk] at hc
      exact hr.of_eq hc rfl rfl
  | t :: rest =>
    obtain ⟨mid, ho, hf⟩ := h.cons_inv
    have hlt := ho.length_lt
    have hl : mid.length < steps := by omega
    rw [current_of_opens ho] at hc
    match t with
    | .dangling _ _ _ | .group none _ _ _ | .group (some _) _ _ _ => exact hr.of_eq hc rfl rfl
    | .atom a span =>
      cases a with
      | sym name =>
        refine Reads.of_eq (hc.trans (pass_bind _ (ahead_of_atom ho))) rfl rfl ?_
        refine Does.bind_closing (does_cells hd hf hl) fun values last => ?_
        match values with
        | [value] => exact reads_pure _
        | [] | _ :: _ :: _ => exact ⟨last, does_malformed paren _⟩
      | _ => exact hr.of_eq hc rfl rfl

/-- An entry of a group of bindings. -/
theorem reads_entry (ho : Opens p.finish p.ahead t mid)
    (hf : Fills p.finish mid items close post) (hs : p.ahead.length ≤ steps) :
    Reads (entry datum steps) p (bindingOf t) mid post := by
  have hm : Does (misplaced .letEntry : Parse Value).recovering p
      (.error ⟨.letEntry p.current.kind, p.current.span⟩) mid post :=
    (does_misplaced _).recovering (.item ho hf)
  have hc : entry datum steps p = _ := current_bind _
  rw [current_of_opens ho] at hm hc
  match t with
  | .atom _ _ | .dangling _ _ _ | .group (some _) _ _ _ =>
    exact ⟨p.previous, hm.of_eq hc rfl rfl⟩
  | .group none inner group last =>
    obtain ⟨ts, ha, hg⟩ := ahead_of_list ho
    have hl : ts.length < steps := by
      rw [ha, List.length_cons] at hs
      omega
    have hb : Reads (pass >>= binding datum steps) p _ mid mid :=
      (reads_binding hd hg hl).of_eq (pass_bind _ ha) rfl rfl
    exact (hb.recovering hf).of_eq hc rfl rfl

theorem reads_bindings (h : Fills p.finish p.ahead items close post)
    (hs : p.ahead.length < steps) :
    Reads (bindings datum steps paren) p
      (Tree.readBindings 0 items >>= Form.bindings paren close) post post := by
  rw [readBindings_zero]
  have hi : Does (untilClose (entry datum steps) paren steps) p _ post post :=
    does_untilClose (fun q t mid rest ho hf hq => reads_entry hd ho hf (Nat.le_of_lt hq)) h hs hs
  refine hi.bind_closing fun definitions last => ?_
  match definitions with
  | [] => exact ⟨last, does_malformed paren _⟩
  | _ :: _ => exact reads_pure _

/-- A special form, behind its name. -/
theorem reads_special (f : SpecialForm) (span : Span) (h : Fills p.finish p.ahead items close post)
    (hs : p.ahead.length < steps) :
    Reads (special datum steps paren f) p
      (Tree.group none paren (.atom (.sym f.name) span :: items) close).read post post := by
  rw [Tree.read, Tree.special?_head]
  simp only [Tree.readAfter_succ, Tree.readBindings_succ, List.drop_one, List.tail_cons]
  cases f with
  | branch => exact reads_branch hd h hs
  | define => exact reads_definition hd h hs
  | shortDefine => exact reads_definition hd h hs
  | function => exact reads_function hd h hs
  | lambda => exact reads_lambda hd h hs
  | logic op => exact reads_logic hd op h hs
  | bindings => exact reads_bindings hd h hs

/-- A list that is not special. -/
theorem reads_cells (mode : Quoting) (h : Fills p.finish p.ahead items close post)
    (hs : p.ahead.length < steps) :
    Reads (cells datum steps paren >>= fun values => pure (.expr mode values)) p
      (Tree.readAfter 0 items >>= Form.list mode paren close) post post :=
  (does_cells hd h hs).bind_closing fun _ _ => reads_pure _

theorem reads_list (h : Fills p.finish p.ahead items close post) (hs : p.ahead.length < steps) :
    Reads (list datum steps .plain paren) p (Tree.group none paren items close).read post post := by
  have hc : list datum steps .plain paren p = _ := current_bind _
  rw [special?_current h] at hc
  cases hf : Form.special? items with
  | none =>
    rw [hf] at hc
    rw [Tree.read, hf]
    exact (reads_cells hd .plain h hs).of_eq hc rfl rfl
  | some f =>
    obtain ⟨span, rest, rfl⟩ := Form.special?_eq_some.mp hf
    rw [hf] at hc
    obtain ⟨mid, ho, hr⟩ := h.cons_inv
    have hlt := ho.length_lt
    have hl : mid.length < steps := by omega
    exact Reads.of_eq (hc.trans (pass_bind _ (ahead_of_atom ho))) rfl rfl
      (reads_special hd f span hr hl)

theorem reads_quoted_list (mark : Mark) (span : Span) (h : Fills p.finish p.ahead items close post)
    (hs : p.ahead.length < steps) :
    Reads (list datum steps mark.quoting paren) p
      (Tree.group (some (mark, span)) paren items close).read post post := by
  rw [Tree.read]
  exact (reads_cells hd mark.quoting h hs).of_eq (by cases mark <;> rfl) rfl rfl

end

/-- A mark before anything but a list or an atom is the only token that it takes. -/
theorem reads_lone_mark {datum : Parse Value} {m : Mark} {span : Span} {found : Token}
    (ha : p.ahead = ⟨.mark m, span⟩ :: mid) (hf : mid.headD ⟨.eof, p.finish⟩ = found)
    (paren : found.kind ≠ .lparen) (atom : ∀ a, found.kind ≠ .atom a) :
    Reads (quoted datum steps m) p
      (.error ⟨.danglingMark m found.kind, span.merge found.span⟩) mid mid := by
  let q : Parser := { p with previous := span, ahead := mid }
  have hq : q.current = found := hf
  refine ⟨span, Does.of_eq (q := q) ?_ rfl rfl (does_fail _)⟩
  rw [quoted, pass_bind _ ha, current_bind, hq]
  obtain ⟨kind, place⟩ := found
  cases kind with
  | lparen => exact (paren rfl).elim
  | atom a => exact (atom a rfl).elim
  | _ => rfl

/-- The parser follows its tokens as long as it has steps for them. -/
theorem follows_datum (steps : Nat) : Follows (datum steps) steps := by
  induction steps with
  | zero =>
    intro p t mid _ hs
    exact absurd hs (Nat.not_lt_zero _)
  | succ steps ih =>
    rintro ⟨previous, ahead, finish, problems⟩ t mid ho hs
    cases ho with
    | atom a span => exact ⟨span, rfl⟩
    | marked m span a place => exact ⟨place, place, rfl⟩
    | lone m span _ paren atom => exact (reads_lone_mark rfl rfl paren atom).of_eq rfl rfl rfl
    | list paren hf => exact (reads_list ih hf (Nat.lt_of_succ_lt_succ hs)).of_eq rfl rfl rfl
    | quoted m span paren hf =>
      have hl := Nat.lt_of_succ_lt_succ (Nat.lt_of_succ_lt hs)
      exact (reads_quoted_list ih m span hf hl).of_eq rfl rfl rfl

end Parse

/-! ### Programs -/

theorem Tree.front_kind (t : Tree) : t.front.kind ≠ .eof ∧ t.front.kind ≠ .rparen := by
  fun_cases Tree.front t <;> simp

/-- The problem of a segment, if it has one. -/
def Segment.problems (s : Segment) : List Problem :=
  match s.read with
  | .ok _ => []
  | .error problem => [problem]

theorem mem_getLast?_cons {t u : Token} {rest : List Token} (h : u ∈ rest.getLast?) :
    u ∈ (t :: rest).getLast? := by
  rw [List.getLast?_cons, Option.mem_def.mp h]
  rfl

/-- An end of input at the place of the last token changes nothing. -/
theorem Forest.ofTokens_append_eof {tokens : List Token} {span : Span}
    (h : ∀ t ∈ tokens.getLast?, span = t.span) :
    ofTokens (tokens ++ [⟨.eof, span⟩]) = ofTokens tokens := by
  fun_induction ofTokens tokens with
  | case1 => rw [List.nil_append, ofTokens]
  | case2 place rest => rw [List.cons_append, ofTokens]
  | case3 place rest ih | case4 place rest ih | case5 a place rest ih =>
    rw [List.cons_append, ofTokens, ih fun u hu => h u (mem_getLast?_cons hu)]
  | case6 m place =>
    obtain rfl : span = place := h _ rfl
    simp [ofTokens, push]
  | case7 m place paren rest ih | case8 m place a found rest ih =>
    rw [List.cons_append, List.cons_append, ofTokens,
      ih fun u hu => h u (mem_getLast?_cons (mem_getLast?_cons hu))]
  | case9 m place found rest hl ha ih =>
    rw [List.cons_append, List.cons_append, ofTokens, ← List.cons_append,
      ih fun u hu => h u (mem_getLast?_cons hu)]
    · exact hl
    · exact ha

namespace Parser

variable {p : Parser} {steps : Nat}

/-- The segments ahead of the cursor. -/
def segments (p : Parser) : List Segment :=
  (Forest.ofTokens (p.ahead ++ [⟨.eof, p.finish⟩])).segments

/-- The cursor goes from `p` to `q` over one segment, and reports its problem if it has one. -/
structure Takes (p : Parser) (s : Segment) (q : Parser) : Prop where
  tokens : p.ahead = s.tokens ++ q.ahead
  segments : p.segments = s :: q.segments
  problems : q.problems = p.problems ++ s.problems

theorem segments_of_beforeEnd (h : beforeEnd p.ahead = []) : p.segments = [] := by
  rw [← beforeEnd_append_eof p.ahead p.finish] at h
  rw [segments, ofTokens_of_beforeEnd h, Forest.segments, List.map_nil]

/-- A tree at the cursor is taken whole, whether it has a value or not. -/
theorem exists_datum_eq (h : Opens p.finish p.ahead t mid) (hs : p.ahead.length < steps) :
    ∃ q, Parse.datum steps p = some (t.read.toOption, q) ∧ Takes p (.tree t) q := by
  have hsegments (last : Span) (problems : List Problem) :
      p.segments = .tree t :: segments ⟨last, mid, p.finish, problems⟩ := by
    rw [segments, segments, h.forest, Forest.segments_push]
  obtain ⟨last, hd⟩ := Parse.follows_datum steps p t mid h hs
  cases hr : t.read with
  | ok v =>
    rw [hr] at hd
    refine ⟨_, hd, h.tokens, hsegments _ _, ?_⟩
    simp [Segment.problems, Segment.read, hr]
  | error problem =>
    rw [hr] at hd
    obtain ⟨next, hd⟩ := hd
    refine ⟨_, hd, h.tokens, hsegments _ _, ?_⟩
    simp [Segment.problems, Segment.read, hr]

theorem takes_stray {span : Span} {rest : List Token} (h : p.ahead = ⟨.rparen, span⟩ :: rest) :
    Takes p (.stray span) (p.report ⟨.strayClose, p.current.span⟩).advance := by
  obtain ⟨previous, ahead, finish, problems⟩ := p
  obtain rfl : ahead = ⟨.rparen, span⟩ :: rest := h
  refine ⟨rfl, ?_, rfl⟩
  rw [segments, List.cons_append, Forest.ofTokens, Forest.segments, List.map_nil, List.nil_append]
  rfl

theorem Takes.length_lt {s : Segment} {q : Parser} (h : Takes p s q) :
    q.ahead.length < p.ahead.length := by
  have hp : s.tokens ≠ [] := by
    cases s with
    | tree t => exact t.tokens_ne_nil
    | stray close => exact List.cons_ne_nil _ _
  have hl := List.length_pos_iff.mpr hp
  rw [h.tokens, List.length_append]
  omega

/-- One round of the parser: it is done, or it takes the next segment and goes on behind it. -/
theorem forms_round (hs : p.ahead.length < steps) (hf : p.isFull = false) :
    (p.segments = [] ∧ ∀ n, forms (.datum steps) (n + 1) p = some ([], p)) ∨
      ∃ s q, Takes p s q ∧ ∀ n, forms (.datum steps) (n + 1) p =
        (forms (.datum steps) n q).map fun r => (s.read.toOption.toList ++ r.1, r.2) := by
  rcases exists_opens p.finish p.ahead fun us _ => exists_fills p.finish us with
    hd | ⟨span, rest, ha⟩ | ⟨t, mid, ho⟩
  · left
    have hk : p.current.kind = .eof := kind_headD_of_beforeEnd hd
    exact ⟨segments_of_beforeEnd hd, fun n => by rw [forms, if_pos (Or.inl hk)]⟩
  · right
    have hk : p.current.kind = .rparen := by rw [current, ha]; rfl
    refine ⟨.stray span, _, takes_stray ha, fun n => ?_⟩
    rw [forms, if_neg (by simp [hk, hf]), if_pos hk]
    simp [Segment.read, Except.toOption]
  · right
    obtain ⟨q, hd, ht⟩ := exists_datum_eq ho hs
    refine ⟨.tree t, q, ht, fun n => ?_⟩
    obtain ⟨he, hp⟩ := t.front_kind
    rw [← Parse.current_of_opens ho] at he hp
    rw [forms, if_neg (by simp [he, hf]), if_neg hp, hd, Segment.read]
    cases t.read with
    | ok v => rfl
    | error problem => simp [Except.toOption]

/-- The parser reads the segments ahead of it, with room for as many problems as are missing. -/
theorem forms_eq {room n : Nat} (hr : p.problems.length + room = Report.capacity)
    (hn : p.ahead.length < n) (hs : p.ahead.length < steps) :
    ∃ q, forms (.datum steps) n p = some ((Program.ofSegments room p.segments).forms, q) ∧
      q.problems = p.problems ++ (Program.ofSegments room p.segments).problems := by
  induction n generalizing p room with
  | zero => exact absurd hn (Nat.not_lt_zero _)
  | succ n ih =>
    cases room with
    | zero =>
      have hf : p.isFull := by simp [isFull, ← hr]
      exact ⟨p, by rw [forms, if_pos (Or.inr hf), Program.ofSegments], by simp [Program.ofSegments]⟩
    | succ room =>
      have hf : p.isFull = false := by simp [isFull, ← hr]
      rcases forms_round hs hf with ⟨hg, he⟩ | ⟨s, q, ht, he⟩
      · refine ⟨p, ?_, ?_⟩
        · rw [he, hg]
          rfl
        · simp [hg, Program.ofSegments]
      · have hlt := ht.length_lt
        have hp := ht.problems
        rw [Segment.problems] at hp
        rw [he, ht.segments, Program.ofSegments]
        cases h : s.read with
        | ok v =>
          rw [h, List.append_nil] at hp
          obtain ⟨last, hl, hq⟩ := ih (p := q) (hp ▸ hr) (by omega) (by omega)
          refine ⟨last, ?_, ?_⟩
          · rw [hl]
            rfl
          · rw [hq, hp]
            rfl
        | error problem =>
          rw [h] at hp
          have hc : q.problems.length + room = Report.capacity := by
            rw [hp, List.length_append, List.length_singleton]
            omega
          obtain ⟨last, hl, hq⟩ := ih hc (by omega) (by omega)
          refine ⟨last, ?_, ?_⟩
          · rw [hl]
            rfl
          · rw [hq, hp, List.append_assoc]
            rfl

theorem segments_start (tokens : List Token) :
    (start tokens).segments = (Forest.ofTokens tokens).segments := by
  fun_cases start tokens with
  | case1 h =>
    obtain rfl := List.getLast?_eq_none_iff.mp h
    simp [segments, Forest.ofTokens]
  | case2 span h =>
    obtain ⟨before, rfl⟩ := List.getLast?_eq_some_iff.mp h
    rw [segments, List.dropLast_concat]
  | case3 last hne h =>
    rw [segments, Forest.ofTokens_append_eof fun t ht => ?_]
    cases h.symm.trans ht
    rfl

theorem start_problems (tokens : List Token) : (start tokens).problems = [] := by
  fun_cases start tokens <;> rfl

theorem start_ahead_length_le (tokens : List Token) :
    (start tokens).ahead.length ≤ tokens.length := by
  fun_cases start tokens with
  | case1 => exact Nat.zero_le _
  | case2 => exact (List.dropLast_sublist tokens).length_le
  | case3 => exact Nat.le_refl _

/-- With a step more than there are tokens the parser reads the whole program. -/
theorem parse_eq_ofTokens {tokens : List Token} (hs : tokens.length < steps) :
    parse steps tokens = some (Program.ofTokens tokens) := by
  have hp := start_problems tokens
  have hl := Nat.lt_of_le_of_lt (start_ahead_length_le tokens) hs
  have hr : (start tokens).problems.length + Report.capacity = Report.capacity := by
    rw [hp, List.length_nil, Nat.zero_add]
  obtain ⟨q, hf, hq⟩ := forms_eq hr hl hl
  rw [hp, List.nil_append] at hq
  rw [parse, hf, Option.map_some, Program.ofTokens, ← segments_start]
  exact congrArg (fun problems => some (Program.mk _ problems)) hq

end Parser

end Lisplet
