import Mathlib.Algebra.Order.Ring.Nat
import Lisplet.Proofs.Places
import Lisplet.Proofs.Recovery

/-! Where problems are reported. A bad lexeme is reported at its own place. Any other problem starts
with a token of the segment that it spoils, and segments come one after another; so the positions of a
report are places of bytes, in the order of the source. -/

namespace Lisplet

/-- The span does not end before it starts, and its end is a position of 32 bits. -/
def Span.Valid (s : Span) : Prop := s.first ≤ s.last ∧ s.last.Fits

theorem Span.Valid.merge {a b : Span} (ha : a.Valid) (hb : b.Valid) : (a.merge b).Valid := by
  constructor
  · have hl : a.last ≤ max a.last b.last := Position.le_max_left _ _
    exact Position.le_trans (Position.min_le_left _ _) (Position.le_trans ha.1 hl)
  · rcases Position.max_eq_or a.last b.last with hm | hm
    · rw [Span.merge, hm]
      exact ha.2
    · rw [Span.merge, hm]
      exact hb.2

/-- The problem starts with one of the tokens. -/
def Problem.Within (tokens : List Token) (p : Problem) : Prop :=
  (∃ t ∈ tokens, p.span.first = t.span.first) ∧ p.span.Valid

/-- The span is that of a token. -/
def Span.Among (tokens : List Token) (s : Span) : Prop := ∃ t ∈ tokens, t.span = s

/-- A result has the property, and a problem starts with one of the tokens. -/
def Blames {α : Type} (tokens : List Token) (P : α → Prop) : Except Problem α → Prop
  | .ok a => P a
  | .error p => p.Within tokens

/-- The parts of a group are made of the tokens. -/
structure Encloses (tokens : List Token) (paren : Span) (items : List Tree)
    (close : Option Span) : Prop where
  paren : paren.Among tokens
  items : ∀ t ∈ items, t.tokens ⊆ tokens
  close : ∀ s ∈ close, s.Among tokens

section

variable {α β : Type} {tokens : List Token} {P : α → Prop} {Q : β → Prop}

theorem Blames.bind {x : Except Problem α} {f : α → Except Problem β} (hx : Blames tokens P x)
    (hf : ∀ a, P a → Blames tokens Q (f a)) : Blames tokens Q (x >>= f) := by
  cases x with
  | error p => exact hx
  | ok a => exact hf a hx

theorem Blames.map {x : Except Problem α} {f : α → β} (hx : Blames tokens P x)
    (hf : ∀ a, P a → Q (f a)) : Blames tokens Q (x.map f) := by
  cases x with
  | error p => exact hx
  | ok a => exact hf a hx

theorem tokens_subset_of_mem {items : List Tree} {t : Tree} (h : t ∈ items) :
    t.tokens ⊆ Tree.tokensOfAll items := by
  induction items with
  | nil => cases h
  | cons u rest ih =>
    rw [Tree.tokensOfAll]
    rcases List.mem_cons.mp h with rfl | h
    · exact List.subset_append_left _ _
    · exact List.subset_append_of_subset_right _ (ih h)

theorem encloses_of_subset {mark : Option (Mark × Span)} {paren : Span} {items : List Tree}
    {close : Option Span} (h : (Tree.group mark paren items close).tokens ⊆ tokens) :
    Encloses tokens paren items close := by
  have hsub : ⟨.lparen, paren⟩ :: (Tree.tokensOfAll items ++ closeTokens close) ⊆ tokens := by
    cases mark with
    | none => exact h
    | some m => exact (List.cons_subset.mp h).2
  obtain ⟨hp, hrest⟩ := List.cons_subset.mp hsub
  obtain ⟨hi, hc⟩ := List.append_subset.mp hrest
  refine ⟨⟨_, hp, rfl⟩, fun t ht => List.Subset.trans (tokens_subset_of_mem ht) hi, fun s hs => ?_⟩
  obtain rfl := Option.mem_def.mp hs
  exact ⟨⟨.rparen, s⟩, hc List.mem_cons_self, rfl⟩

theorem Encloses.drop {paren : Span} {items : List Tree} {close : Option Span}
    (h : Encloses tokens paren items close) (n : Nat) : Encloses tokens paren (items.drop n) close :=
  ⟨h.paren, fun t ht => h.items t (List.mem_of_mem_drop ht), h.close⟩

theorem Tree.front_mem_tokens (t : Tree) : t.front ∈ t.tokens := by
  obtain ⟨rest, hr⟩ := t.tokens_eq_front_cons
  rw [hr]
  exact List.mem_cons_self

theorem Encloses.front {paren : Span} {items : List Tree} {close : Option Span}
    (h : Encloses tokens paren items close) {t : Tree} (ht : t ∈ items) :
    t.front.span.Among tokens :=
  ⟨_, h.items t ht t.front_mem_tokens, rfl⟩

end

namespace Form

variable {tokens : List Token} (hv : ∀ t ∈ tokens, t.span.Valid) {form : Name} {paren : Span}
  {items : List Tree} {close : Option Span} {values : List Value}

include hv

theorem within_of_among {complaint : Complaint} {s : Span} (hs : s.Among tokens) :
    Problem.Within tokens ⟨complaint, s⟩ := by
  obtain ⟨t, ht, rfl⟩ := hs
  exact ⟨⟨t, ht, rfl⟩, hv t ht⟩

/-- Whichever of the two comes first, the merged span starts with a token. -/
theorem within_merge {complaint : Complaint} {a b : Span} (ha : a.Among tokens)
    (hb : b.Among tokens) : Problem.Within tokens ⟨complaint, a.merge b⟩ := by
  obtain ⟨t, ht, rfl⟩ := ha
  obtain ⟨u, hu, rfl⟩ := hb
  refine ⟨?_, (hv t ht).merge (hv u hu)⟩
  rcases Position.min_eq_or t.span.first u.span.first with hm | hm
  · exact ⟨t, ht, hm⟩
  · exact ⟨u, hu, hm⟩

theorem blames_closing (h : Encloses tokens paren items close) :
    Blames tokens (Span.Among tokens) (closing paren close) := by
  cases hc : close with
  | none => exact within_of_among hv h.paren
  | some s => exact h.close s hc

theorem blames_upcoming (h : Encloses tokens paren items close) :
    Blames tokens (fun t => t.span.Among tokens) (upcoming paren close items) := by
  cases items with
  | nil => exact (blames_closing hv h).map fun _ hs => hs
  | cons t rest => exact h.front List.mem_cons_self

theorem blames_symbols (h : Encloses tokens paren items close) :
    Blames tokens (fun r => r.2.Among tokens) (symbols form paren close items) := by
  fun_induction symbols form paren close items with
  | case1 => exact (blames_closing hv h).map fun _ hs => hs
  | case2 name span rest ih => exact (ih (h.drop 1)).map fun _ hs => hs
  | case3 t rest => exact within_of_among hv (h.front List.mem_cons_self)

theorem blames_target (h : Encloses tokens paren items close) :
    Blames tokens (fun _ => True) (target form paren close items) := by
  fun_cases target form paren close items with
  | case1 name span rest => trivial
  | case2 inner group last rest =>
    have hg := encloses_of_subset (h.items _ List.mem_cons_self)
    refine (blames_symbols hv hg).bind fun r hr => ?_
    split
    · trivial
    · exact within_merge hv h.paren hr
  | case3 => exact (blames_upcoming hv h).bind fun found hf => within_of_among hv hf

theorem blames_parameters (h : Encloses tokens paren items close) :
    Blames tokens (fun r => r.2.Among tokens) (parameters form paren close items) := by
  fun_cases parameters form paren close items with
  | case1 inner group last rest =>
    exact blames_symbols hv (encloses_of_subset (h.items _ List.mem_cons_self))
  | case2 => exact (blames_upcoming hv h).bind fun found hf => within_of_among hv hf

theorem blames_signature (h : Encloses tokens paren items close) :
    Blames tokens (fun _ => True) (signature paren close items) := by
  refine (blames_parameters hv h).bind fun r hr => ?_
  split
  · exact within_merge hv h.paren hr
  · exact within_merge hv h.paren hr
  · trivial

theorem blames_formals (h : Encloses tokens paren items close) :
    Blames tokens (fun _ => True) (formals paren close items) := by
  refine (blames_parameters hv h).bind fun r hr => ?_
  split
  · exact within_merge hv h.paren hr
  · trivial

theorem blames_list {mode : Quoting} (h : Encloses tokens paren items close) :
    Blames tokens (fun _ => True) (list mode paren close values) :=
  (blames_closing hv h).bind fun _ _ => trivial

/-- A form that counts its parts, once it is closed. -/
theorem blames_counted {α : Type} (h : Encloses tokens paren items close)
    {check : Span → Except Problem α}
    (hc : ∀ span, (∃ a, check span = .ok a) ∨
      ∃ complaint, check span = .error ⟨complaint, paren.merge span⟩) :
    Blames tokens (fun _ => True) (closing paren close >>= check) := by
  refine (blames_closing hv h).bind fun span hs => ?_
  rcases hc span with ⟨a, ha⟩ | ⟨complaint, ha⟩
  · rw [ha]
    trivial
  · rw [ha]
    exact within_merge hv h.paren hs

theorem blames_body (h : Encloses tokens paren items close) :
    Blames tokens (fun _ => True) (body form paren close values) := by
  refine blames_counted hv h fun span => ?_
  split
  · exact .inl ⟨_, rfl⟩
  · exact .inr ⟨_, rfl⟩

theorem blames_branch (h : Encloses tokens paren items close) :
    Blames tokens (fun _ => True) (branch paren close values) := by
  refine blames_counted hv h fun span => ?_
  split
  · exact .inl ⟨_, rfl⟩
  · exact .inr ⟨_, rfl⟩

theorem blames_logic {op : Connective} (h : Encloses tokens paren items close) :
    Blames tokens (fun _ => True) (logic op paren close values) := by
  refine blames_counted hv h fun span => ?_
  split
  · exact .inr ⟨_, rfl⟩
  · exact .inl ⟨_, rfl⟩

theorem blames_binding {name : Name} (h : Encloses tokens paren items close) :
    Blames tokens (fun _ => True) (binding name paren close values) := by
  refine blames_counted hv h fun span => ?_
  split
  · exact .inl ⟨_, rfl⟩
  · exact .inr ⟨_, rfl⟩

theorem blames_bindings (h : Encloses tokens paren items close) :
    Blames tokens (fun _ => True) (bindings paren close values) := by
  refine blames_counted hv h fun span => ?_
  split
  · exact .inr ⟨_, rfl⟩
  · exact .inl ⟨_, rfl⟩

end Form

/-- What a mark without list found instead comes after the mark. -/
inductive Tree.Ordered : Tree → Prop where
  | atom (a : Atom) (span : Span) : Ordered (.atom a span)
  | dangling {mark : Mark} {span : Span} {found : Token} : span.first ≤ found.span.first →
      found.span.Valid → Ordered (.dangling mark span found)
  | group {mark : Option (Mark × Span)} {paren : Span} {items : List Tree} {close : Option Span} :
      (∀ t ∈ items, Ordered t) → Ordered (.group mark paren items close)

namespace Tree

variable {tokens : List Token}

/-- Definitions and functions: a header, then one body. -/
theorem blames_header {α : Type} (hv : ∀ t ∈ tokens, t.span.Valid) {form : Name} {paren : Span}
    {items : List Tree}
    {close : Option Span} {header : Except Problem α} {values : Except Problem (List Value)}
    {build : α → Value → Value} (h : Encloses tokens paren items close)
    (hh : Blames tokens (fun _ => True) header) (hr : Blames tokens (fun _ => True) values) :
    Blames tokens (fun _ => True) (do
      let a ← header
      let vs ← values
      let value ← Form.body form paren close vs
      .ok (build a value)) :=
  hh.bind fun _ _ => hr.bind fun _ _ => (Form.blames_body hv h).bind fun _ _ => trivial

/-- Anything but a list that starts with a name is blamed on its first token, or on what comes after
its parenthesis. -/
theorem blames_entry (hv : ∀ t ∈ tokens, t.span.Valid) {t : Tree} {rest : List Tree}
    (hs : t.tokens ⊆ tokens)
    (hn : ∀ paren name span inner close,
      t ≠ .group none paren (.atom (.sym name) span :: inner) close) :
    Blames tokens (fun _ => True) (readBindings 0 (t :: rest)) := by
  rw [readBindings.eq_def]
  split
  · trivial
  · contradiction
  · next he => exact (hn _ _ _ _ _ (List.cons.inj he).1).elim
  · next he =>
    cases he
    exact (Form.blames_upcoming hv (encloses_of_subset hs)).bind fun _ hf =>
      Form.within_of_among hv hf
  · next he =>
    cases he
    exact Form.within_of_among hv ⟨_, hs t.front_mem_tokens, rfl⟩

mutual

/-- The one problem of a tree starts with a token of the tree. -/
theorem blames_read (hv : ∀ t ∈ tokens, t.span.Valid) (t : Tree) (ho : t.Ordered) (hs : t.tokens ⊆ tokens) :
    Blames tokens (fun _ => True) t.read := by
  match t, ho with
  | .atom a span, _ =>
    rw [read]
    trivial
  | .dangling mark span found, .dangling hf hfound =>
    rw [read]
    have hm : ⟨.mark mark, span⟩ ∈ tokens := hs (front_mem_tokens (.dangling mark span found))
    exact ⟨⟨_, hm, Position.min_eq_left hf⟩, (hv _ hm).merge hfound⟩
  | .group (some (mark, span)) paren items close, .group hi =>
    have he := encloses_of_subset hs
    rw [read]
    exact (blames_readAfter hv 0 items hi he.items).bind fun _ _ => Form.blames_list hv he
  | .group none paren items close, .group hi =>
    have he := encloses_of_subset hs
    have hafter (skip : Nat) := blames_readAfter hv skip items hi he.items
    rw [read]
    cases Form.special? items with
    | none => exact (hafter 0).bind fun _ _ => Form.blames_list hv he
    | some f =>
      cases f with
      | branch => exact (hafter 1).bind fun _ _ => Form.blames_branch hv he
      | define => exact blames_header hv he (Form.blames_target hv (he.drop 1)) (hafter 2)
      | shortDefine => exact blames_header hv he (Form.blames_target hv (he.drop 1)) (hafter 2)
      | function => exact blames_header hv he (Form.blames_signature hv (he.drop 1)) (hafter 2)
      | lambda => exact blames_header hv he (Form.blames_formals hv (he.drop 1)) (hafter 2)
      | logic op => exact (hafter 1).bind fun _ _ => Form.blames_logic hv he
      | bindings =>
        exact (blames_readBindings hv 1 items hi he.items).bind fun _ _ => Form.blames_bindings hv he

theorem blames_readAfter (hv : ∀ t ∈ tokens, t.span.Valid) (skip : Nat) (items : List Tree)
    (ho : ∀ t ∈ items, t.Ordered) (hs : ∀ t ∈ items, t.tokens ⊆ tokens) :
    Blames tokens (fun _ => True) (readAfter skip items) := by
  match skip, items with
  | _, [] =>
    rw [readAfter]
    trivial
  | skip + 1, t :: rest =>
    rw [readAfter]
    exact blames_readAfter hv skip rest (List.forall_mem_cons.mp ho).2 (List.forall_mem_cons.mp hs).2
  | 0, t :: rest =>
    obtain ⟨hot, hor⟩ := List.forall_mem_cons.mp ho
    obtain ⟨hst, hsr⟩ := List.forall_mem_cons.mp hs
    rw [readAfter]
    exact (blames_read hv t hot hst).bind fun _ _ =>
      (blames_readAfter hv 0 rest hor hsr).bind fun _ _ => trivial

theorem blames_readBindings (hv : ∀ t ∈ tokens, t.span.Valid) (skip : Nat) (items : List Tree)
    (ho : ∀ t ∈ items, t.Ordered) (hs : ∀ t ∈ items, t.tokens ⊆ tokens) :
    Blames tokens (fun _ => True) (readBindings skip items) := by
  match skip, items with
  | _, [] =>
    rw [readBindings]
    trivial
  | skip + 1, t :: rest =>
    rw [readBindings]
    exact blames_readBindings hv skip rest (List.forall_mem_cons.mp ho).2 (List.forall_mem_cons.mp hs).2
  | 0, t :: rest =>
    obtain ⟨hot, hor⟩ := List.forall_mem_cons.mp ho
    obtain ⟨hst, hsr⟩ := List.forall_mem_cons.mp hs
    by_cases hn : ∃ paren name span inner close,
        t = .group none paren (.atom (.sym name) span :: inner) close
    · obtain ⟨paren, name, span, inner, close, rfl⟩ := hn
      have he := encloses_of_subset hst
      cases hot with
      | group hi =>
        rw [readBindings]
        refine (blames_readAfter hv 0 inner (List.forall_mem_cons.mp hi).2 (he.drop 1).items).bind
          fun _ _ => (Form.blames_binding hv he).bind fun _ _ => ?_
        exact (blames_readBindings hv 0 rest hor hsr).bind fun _ _ => trivial
    · refine blames_entry hv hst ?_
      rintro paren name span inner close rfl
      exact hn ⟨paren, name, span, inner, close, rfl⟩

end

end Tree

/-- Valid spans, in the order in which they start. -/
structure Token.InOrder (ts : List Token) : Prop where
  valid : ∀ t ∈ ts, t.span.Valid
  starts : ts.Pairwise fun a b => a.span.first ≤ b.span.first

theorem Token.InOrder.tail {t : Token} {rest : List Token} (h : InOrder (t :: rest)) :
    InOrder rest :=
  ⟨(List.forall_mem_cons.mp h.valid).2, (List.pairwise_cons.mp h.starts).2⟩

namespace Forest

def Ordered : Forest → Prop
  | .ending items => ∀ t ∈ items, t.Ordered
  | .closing items _ outer => (∀ t ∈ items, t.Ordered) ∧ outer.Ordered

theorem Ordered.push {t : Tree} {f : Forest} (hf : f.Ordered) (ht : t.Ordered) :
    (f.push t).Ordered := by
  cases f with
  | ending items => exact List.forall_mem_cons.mpr ⟨ht, hf⟩
  | closing items close outer => exact ⟨List.forall_mem_cons.mpr ⟨ht, hf.1⟩, hf.2⟩

theorem Ordered.wrap {f : Forest} (hf : f.Ordered) (mark : Option (Mark × Span)) (paren : Span) :
    (f.wrap mark paren).Ordered := by
  cases f with
  | ending items => exact List.forall_mem_singleton.mpr (.group hf)
  | closing items close outer => exact hf.2.push (.group hf.1)

theorem ordered_ofTokens {ts : List Token} (h : Token.InOrder ts) : (ofTokens ts).Ordered := by
  fun_induction ofTokens ts with
  | case1 => exact fun t ht => absurd ht List.not_mem_nil
  | case2 => exact fun t ht => absurd ht List.not_mem_nil
  | case3 span rest ih => exact (ih h.tail).wrap none span
  | case4 span rest ih => exact ⟨fun t ht => absurd ht List.not_mem_nil, ih h.tail⟩
  | case5 a span rest ih => exact (ih h.tail).push (.atom a span)
  | case6 m span =>
    -- The end that is missing stands at the mark itself.
    have hspan : span.Valid := h.valid _ List.mem_cons_self
    exact List.forall_mem_singleton.mpr (.dangling (Position.le_refl _) hspan)
  | case7 m span paren rest ih => exact (ih h.tail.tail).wrap (some (m, span)) paren
  | case8 m span a place rest ih =>
    have hf := (List.pairwise_cons.mp h.starts).1 _ List.mem_cons_self
    exact (ih h.tail.tail).push (.dangling hf (h.tail.valid _ List.mem_cons_self))
  | case9 m span found rest hl ha ih =>
    have hf := (List.pairwise_cons.mp h.starts).1 _ List.mem_cons_self
    exact (ih h.tail).push (.dangling hf (h.tail.valid _ List.mem_cons_self))

theorem Ordered.segments {f : Forest} (h : f.Ordered) :
    ∀ t, Segment.tree t ∈ f.segments → t.Ordered := by
  induction f with
  | ending items =>
    intro t ht
    obtain ⟨u, hu, he⟩ := List.mem_map.mp ht
    cases he
    exact h t hu
  | closing items close outer ih =>
    intro t ht
    rcases List.mem_append.mp ht with ht | ht
    · obtain ⟨u, hu, he⟩ := List.mem_map.mp ht
      cases he
      exact h.1 t hu
    · rcases List.mem_cons.mp ht with he | ht
      · cases he
      · exact ih h.2 t ht

end Forest

/-- The problem of a segment starts with one of its tokens. -/
theorem Segment.blames_read {s : Segment} (ho : ∀ t, s = .tree t → t.Ordered)
    (hv : ∀ t ∈ s.tokens, t.span.Valid) : Blames s.tokens (fun _ => True) s.read := by
  cases s with
  | tree t => exact Tree.blames_read hv t (ho t rfl) (List.Subset.refl _)
  | stray close => exact Form.within_of_among hv ⟨_, List.mem_cons_self, rfl⟩

namespace Program

/-- Each problem starts with a token of its own segment, so the problems are in order too. -/
theorem ofSegments_anchored (room : Nat) {segments : List Segment}
    (h : ∀ s ∈ segments, Blames s.tokens (fun _ => True) s.read) :
    ∃ anchors : List Token, anchors.Sublist (segments.map Segment.tokens).flatten ∧
      (ofSegments room segments).problems.map (·.span.first) = anchors.map (·.span.first) ∧
      ∀ p ∈ (ofSegments room segments).problems, p.span.Valid := by
  fun_induction ofSegments room segments with
  | case1 => exact ⟨[], List.nil_sublist _, rfl, List.forall_mem_nil _⟩
  | case2 => exact ⟨[], List.nil_sublist _, rfl, List.forall_mem_nil _⟩
  | case3 room s rest value hr ih =>
    obtain ⟨anchors, hsub, hfirst, hvalid⟩ := ih (List.forall_mem_cons.mp h).2
    exact ⟨anchors, hsub.trans (List.sublist_append_right _ _), hfirst, hvalid⟩
  | case4 room s rest problem hr ih =>
    obtain ⟨hs, hrest⟩ := List.forall_mem_cons.mp h
    obtain ⟨anchors, hsub, hfirst, hvalid⟩ := ih hrest
    rw [hr] at hs
    obtain ⟨⟨t, ht, he⟩, hp⟩ := hs
    refine ⟨t :: anchors, (List.singleton_sublist.mpr ht).append hsub, ?_, ?_⟩
    · exact congrArg₂ _ he hfirst
    · exact List.forall_mem_cons.mpr ⟨hp, hvalid⟩

theorem ofTokens_anchored {ts : List Token} (h : Token.InOrder ts) :
    ∃ anchors : List Token, anchors.Sublist (beforeEnd ts) ∧
      (ofTokens ts).problems.map (·.span.first) = anchors.map (·.span.first) ∧
      ∀ p ∈ (ofTokens ts).problems, p.span.Valid := by
  have hflat : ((Forest.ofTokens ts).segments.map Segment.tokens).flatten = beforeEnd ts := by
    rw [segments_tokens, Segmentation.flatten_cut]
  have hsub : beforeEnd ts ⊆ ts := (List.takeWhile_prefix _).subset
  have hs : ∀ s ∈ (Forest.ofTokens ts).segments, Blames s.tokens (fun _ => True) s.read := by
    intro s hs
    refine Segment.blames_read ?_ fun t ht => h.valid t (hsub ?_)
    · rintro t rfl
      exact (Forest.ordered_ofTokens h).segments t hs
    · rw [← hflat]
      exact List.mem_flatten_of_mem (List.mem_map_of_mem hs) ht
  rw [← hflat]
  exact ofSegments_anchored Report.capacity hs

end Program

/-- What a partial function gives on a list, beside the elements on which it is defined. -/
theorem forall₂_filterMap {α β : Type} (f : α → Option β) (l : List α) :
    List.Forall₂ (fun b x => f x = some b) (l.filterMap f) (l.filter fun x => (f x).isSome) := by
  induction l with
  | nil => exact .nil
  | cons a rest ih =>
    cases ha : f a with
    | none =>
      rw [List.filterMap_cons_none ha, List.filter_cons_of_neg (by simp [ha])]
      exact ih
    | some b =>
      rw [List.filterMap_cons_some ha, List.filter_cons_of_pos (by simp [ha])]
      exact .cons ha ih

theorem map_eq_of_forall₂ {α β γ : Type} {R : α → β → Prop} {g : α → γ} {k : β → γ} {l : List α}
    {m : List β} (h : List.Forall₂ R l m) (hr : ∀ a b, R a b → g a = k b) : l.map g = m.map k := by
  induction h with
  | nil => rfl
  | cons hab _ ih => rw [List.map_cons, List.map_cons, hr _ _ hab, ih]

namespace Stretch

variable {bytes : List UInt8} {x : Stretch}

theorem token?_eq_some {t : Token} : x.token? bytes = some t ↔
    x.piece.meaning = .token t.kind ∧
      t.span = ⟨.ofByte bytes x.start, .ofByte bytes x.last⟩ := by
  unfold token?
  cases hm : x.piece.meaning with
  | token kind =>
    obtain ⟨kind', span⟩ := t
    simp [eq_comm]
  | _ => simp

theorem problem?_eq_some {p : Problem} : x.problem? bytes = some p ↔
    x.piece.meaning = .bad p.complaint ∧
      p.span = .ofText (.ofByte bytes x.start) x.piece.text := by
  unfold problem?
  cases hm : x.piece.meaning with
  | bad complaint =>
    obtain ⟨complaint', span⟩ := p
    simp [eq_comm]
  | _ => simp

end Stretch

namespace Source

variable {s : Source} {xs : List Stretch} {x : Stretch}

/-- Pieces that come later have later places. -/
theorem pairwise_places (h : xs.Sublist s.stretches) : xs.Pairwise fun x y =>
    Position.ofByte s.bytes x.start < .ofByte s.bytes y.start := by
  refine (s.pairwise_stretches.sublist h).imp_of_mem fun {x y} hx hy hlt => ?_
  have hfx := fills_of_mem_stretches (h.subset hx)
  have hfy := fills_of_mem_stretches (h.subset hy)
  exact Position.ofByte_lt (Nat.lt_of_le_of_lt hfx.start_le hlt)
    (Nat.le_of_lt (Nat.lt_of_le_of_lt hfy.start_le hfy.last_lt))

theorem valid_of_token? {t : Token} (hb : s.bytes.length < 2 ^ 32 - 1) (hx : x ∈ s.stretches)
    (h : x.token? s.bytes = some t) : t.span.Valid := by
  have hf := fills_of_mem_stretches hx
  rw [Span.Valid, (Stretch.token?_eq_some.mp h).2]
  exact ⟨Position.ofByte_le hf.start_le (Nat.le_of_lt hf.last_lt), Position.fits_ofByte hb _⟩

theorem valid_of_problem? {p : Problem} (hb : s.bytes.length < 2 ^ 32 - 1) (hx : x ∈ s.stretches)
    (h : x.problem? s.bytes = some p) : p.span.Valid := by
  obtain ⟨start, piece⟩ := x
  obtain ⟨hf, before, more, rfl, ht⟩ := exists_append_of_mem_stretches hx
  obtain ⟨j, hj, hlen, hspan, -⟩ := Stretch.ofText_eq hf ht
  have hstart : Position.ofByte s.bytes before.length = .past before := by
    rw [Position.ofByte, ← ht, List.take_left]
  rw [Span.Valid, (Stretch.problem?_eq_some.mp h).2, hstart, hspan]
  exact ⟨Position.ofByte_le hj hlen, Position.fits_ofByte hb _⟩

theorem inOrder_tokens (hb : s.bytes.length < 2 ^ 32 - 1) (hp : s.scan.problems = []) :
    Token.InOrder s.scan.tokens := by
  obtain ⟨front, n, hfront, -, hscan, hend⟩ := s.scan_placed
  obtain rfl := hend hp
  rw [hscan]
  constructor
  · intro t ht
    rcases List.mem_append.mp ht with ht | ht
    · obtain ⟨x, hx, ht⟩ := List.mem_filterMap.mp ht
      exact valid_of_token? hb (hfront.subset hx) ht
    · obtain rfl := List.mem_singleton.mp ht
      exact ⟨Position.le_refl _, Position.fits_ofByte hb _⟩
  · rw [List.pairwise_append]
    refine ⟨?_, List.pairwise_singleton _ _, ?_⟩
    · refine List.pairwise_filterMap.mpr ((pairwise_places hfront.sublist).imp ?_)
      intro x y hlt t ht u hu
      rw [(Stretch.token?_eq_some.mp ht).2, (Stretch.token?_eq_some.mp hu).2]
      exact Position.le_of_lt hlt
    · intro t ht u hu
      obtain ⟨x, hx, ht⟩ := List.mem_filterMap.mp ht
      obtain rfl := List.mem_singleton.mp hu
      have hf := fills_of_mem_stretches (hfront.subset hx)
      rw [(Stretch.token?_eq_some.mp ht).2]
      exact Position.ofByte_le (Nat.le_of_lt (Nat.lt_of_le_of_lt hf.start_le hf.last_lt))
        (Nat.le_refl _)

theorem beforeEnd_tokens {front : List Stretch} {n : Nat} {problems : List Problem}
    (h : s.scan = ⟨front.filterMap (Stretch.token? s.bytes) ++
      [⟨.eof, .point (.ofByte s.bytes n)⟩], problems⟩) :
    beforeEnd s.scan.tokens = front.filterMap (Stretch.token? s.bytes) := by
  rw [h, beforeEnd, List.takeWhile_append_of_pos]
  · simp
  · intro t ht
    obtain ⟨x, -, ht⟩ := List.mem_filterMap.mp ht
    have hm := (Stretch.token?_eq_some.mp ht).1
    rw [decide_eq_true_eq]
    intro he
    exact x.piece.meaning_ne_eof (he ▸ hm)

theorem ofText_of_problems_eq_nil (hp : s.scan.problems = []) :
    Program.ofText s.text = .ofTokens s.scan.tokens := by
  have hp' : (Scan.ofText s.text).problems = [] := hp
  simp only [Program.ofText, hp']
  rfl

theorem ofText_of_problems_ne_nil (hp : s.scan.problems ≠ []) :
    (Program.ofText s.text).problems = s.scan.problems := by
  rw [Program.ofText]
  split
  · contradiction
  · rfl

/-- What is made of pieces, each at the place of its piece. -/
theorem exists_places {β : Type} {f : Stretch → Option β} {first : β → Position}
    (hxs : xs.Sublist s.stretches) (hf : ∀ x b, f x = some b →
      x.piece.meaning ≠ .trivia ∧ first b = .ofByte s.bytes x.start) :
    ∃ ys : List Stretch, ys.Sublist s.stretches ∧ (∀ y ∈ ys, y.piece.meaning ≠ .trivia) ∧
      (xs.filterMap f).map first = ys.map fun y => .ofByte s.bytes y.start := by
  refine ⟨xs.filter fun x => (f x).isSome, List.filter_sublist.trans hxs, ?_, ?_⟩
  · intro x hx
    obtain ⟨b, hb⟩ := Option.isSome_iff_exists.mp (List.mem_filter.mp hx).2
    exact (hf x b hb).1
  · exact map_eq_of_forall₂ (forall₂_filterMap f xs) fun b x hb => (hf x b hb).2

/-- The problems of a text start where pieces start, in order. -/
theorem problems_placed (hb : s.bytes.length < 2 ^ 32 - 1) :
    ∃ xs : List Stretch, xs.Sublist s.stretches ∧ (∀ x ∈ xs, x.piece.meaning ≠ .trivia) ∧
      (Program.ofText s.text).problems.map (·.span.first) =
        xs.map (fun x => .ofByte s.bytes x.start) ∧
      ∀ p ∈ (Program.ofText s.text).problems, p.span.Valid := by
  obtain ⟨front, n, hfront, -, hscan, -⟩ := s.scan_placed
  by_cases hp : s.scan.problems = []
  · -- Every problem has a token to start with, and every token has its piece.
    obtain ⟨anchors, hsub, hfirst, hvalid⟩ := Program.ofTokens_anchored (inOrder_tokens hb hp)
    rw [beforeEnd_tokens hscan] at hsub
    obtain ⟨ys, hys, rfl⟩ := List.sublist_filterMap_iff.mp hsub
    have hf (x : Stretch) (t : Token) (h : x.token? s.bytes = some t) :
        x.piece.meaning ≠ .trivia ∧ t.span.first = .ofByte s.bytes x.start := by
      obtain ⟨hm, hspan⟩ := Stretch.token?_eq_some.mp h
      exact ⟨by rw [hm]; nofun, by rw [hspan]⟩
    obtain ⟨xs, hxs, hne, hplaces⟩ := exists_places (hys.trans hfront.sublist) hf
    rw [ofText_of_problems_eq_nil hp]
    exact ⟨xs, hxs, hne, hfirst.trans hplaces, hvalid⟩
  · have hf (x : Stretch) (p : Problem) (h : x.problem? s.bytes = some p) :
        x.piece.meaning ≠ .trivia ∧ p.span.first = .ofByte s.bytes x.start := by
      obtain ⟨hm, hspan⟩ := Stretch.problem?_eq_some.mp h
      exact ⟨by rw [hm]; nofun, by rw [hspan, Span.ofText]⟩
    obtain ⟨xs, hxs, hne, hplaces⟩ := exists_places hfront.sublist hf
    rw [ofText_of_problems_ne_nil hp, hscan]
    refine ⟨xs, hxs, hne, hplaces, fun p hp => ?_⟩
    obtain ⟨x, hx, h⟩ := List.mem_filterMap.mp hp
    exact valid_of_problem? hb (hfront.subset hx) h

/-- The token stands for the piece, and its span goes from the first byte of the piece to the last. -/
structure Covers (bytes : List UInt8) (t : Token) (x : Stretch) : Prop where
  meaning : x.piece.meaning = .token t.kind
  span : t.span = ⟨.ofByte bytes x.start, .ofByte bytes x.last⟩

/-- The diagnostic points at a piece of the source that is no trivia, and shows its line as it is
there, up to carriage returns at the end. -/
structure PointsAt (s : Source) (d : Diagnostic) : Prop where
  file : d.file = s.name
  start : ∃ x ∈ s.stretches, x.Fills s.bytes ∧ x.piece.meaning ≠ .trivia ∧
    d.span.first = .ofByte s.bytes x.start
  ordered : d.span.first ≤ d.span.last
  fits : d.span.first.Fits ∧ d.span.last.Fits
  found : s.line? d.span.first.line = some d.sourceLine
  line : ∃ n, IsLine s.text.toList d.span.first.line
    (d.sourceLine.toList ++ List.replicate n '\r')
  stripped : ∀ u, d.sourceLine.toList ≠ u ++ ['\r']

theorem pointsAt_diagnose {p : Problem} (hb : s.bytes.length < 2 ^ 32 - 1) (hx : x ∈ s.stretches)
    (hm : x.piece.meaning ≠ .trivia) (hp : p.span.first = .ofByte s.bytes x.start)
    (hv : p.span.Valid) : s.PointsAt (s.diagnose p) := by
  obtain ⟨line, hline, hfound⟩ := s.line?_ofByte x.start
  obtain ⟨⟨n, hn⟩, hstripped⟩ := stripReturns_eq line
  have hd : (s.diagnose p).sourceLine = String.ofList (stripReturns line) := by
    rw [diagnose, hp, hfound, Option.getD_some]
  refine ⟨rfl, ⟨x, hx, fills_of_mem_stretches hx, hm, hp⟩, hv.1, ⟨?_, hv.2⟩, ?_, ⟨n, ?_⟩, ?_⟩
  · rw [show (s.diagnose p).span.first = _ from hp]
    exact Position.fits_ofByte hb _
  · rw [hd, ← hfound, ← hp]
    rfl
  · rw [hd, String.toList_ofList, ← hn, show (s.diagnose p).span.first = _ from hp]
    exact hline
  · rw [hd, String.toList_ofList]
    exact hstripped

end Source

theorem Scan.length_problems_le (room : Nat) (p : Position) (pieces : List Lexeme) :
    (ofLexemes room p pieces).problems.length ≤ room := by
  fun_induction ofLexemes room p pieces with
  | case1 => exact Nat.zero_le _
  | case2 _ _ _ _ _ _ ih => exact ih
  | case3 => exact Nat.zero_le _
  | case4 _ _ _ _ _ _ _ _ ih => exact ih
  | case5 _ _ _ _ _ _ _ _ ih => exact Nat.succ_le_succ ih

theorem Program.length_problems_le (room : Nat) (segments : List Segment) :
    (ofSegments room segments).problems.length ≤ room := by
  fun_induction ofSegments room segments with
  | case1 => exact Nat.zero_le _
  | case2 => exact Nat.zero_le _
  | case3 _ _ _ _ _ ih => exact ih
  | case4 _ _ _ _ _ ih => exact Nat.succ_le_succ ih

namespace Source

/-- A report stores every problem of a text. -/
theorem errors_report (s : Source) : (s.report (Program.ofText s.text).problems).errors =
    (Program.ofText s.text).problems.map s.diagnose := by
  have hl : (Program.ofText s.text).problems.length ≤ Report.capacity := by
    by_cases hp : s.scan.problems = []
    · rw [ofText_of_problems_eq_nil hp]
      exact Program.length_problems_le _ _
    · rw [ofText_of_problems_ne_nil hp]
      exact Scan.length_problems_le _ _ _
  rw [report, Report.ofList_eq (by rwa [List.length_map])]

/-- Positions are places of bytes. The tokens before the end cover pieces of the text, which do not
overlap, and without bad pieces the end stands behind the last byte. Each error points at a piece, and
later errors at later pieces. -/
theorem positions_are_places (s : Source) (h : s.bytes.length < 2 ^ 32 - 1) :
    (∀ x ∈ s.stretches, x.Fills s.bytes) ∧
    (∃ (pieces : List Stretch) (n : Nat), pieces.Sublist s.stretches ∧
      (pieces.Pairwise fun x y => x.last < y.start) ∧
      List.Forall₂ (Covers s.bytes) (beforeEnd s.scan.tokens) pieces ∧
      s.scan.tokens = beforeEnd s.scan.tokens ++ [⟨.eof, .point (.ofByte s.bytes n)⟩] ∧
      (s.scan.problems = [] → n = s.bytes.length)) ∧
    (∀ t ∈ s.scan.tokens, t.span.first.Fits ∧ t.span.last.Fits) ∧
    (∀ d ∈ (s.report (Program.ofText s.text).problems).errors, s.PointsAt d) ∧
    (s.report (Program.ofText s.text).problems).errors.Pairwise fun d e =>
      d.span.first < e.span.first := by
  obtain ⟨front, n, hfront, -, hscan, hend⟩ := s.scan_placed
  obtain ⟨xs, hxs, hne, hplaces, hvalid⟩ := problems_placed h
  have hbefore := beforeEnd_tokens hscan
  rw [errors_report]
  refine ⟨fun x => fills_of_mem_stretches, ?_, ?_, ?_, ?_⟩
  · have hsub := (@List.filter_sublist _ (fun x => (x.token? s.bytes).isSome) front).trans
      hfront.sublist
    refine ⟨_, n, hsub, s.pairwise_stretches.sublist hsub, ?_, by rw [hbefore, hscan], hend⟩
    rw [hbefore]
    refine (forall₂_filterMap (Stretch.token? s.bytes) front).imp fun t x ht => ?_
    obtain ⟨hm, hspan⟩ := Stretch.token?_eq_some.mp ht
    exact ⟨hm, hspan⟩
  · intro t ht
    rw [hscan] at ht
    rcases List.mem_append.mp ht with ht | ht
    · obtain ⟨x, -, ht⟩ := List.mem_filterMap.mp ht
      rw [(Stretch.token?_eq_some.mp ht).2]
      exact ⟨Position.fits_ofByte h _, Position.fits_ofByte h _⟩
    · obtain rfl := List.mem_singleton.mp ht
      exact ⟨Position.fits_ofByte h _, Position.fits_ofByte h _⟩
  · intro d hd
    obtain ⟨p, hp, rfl⟩ := List.mem_map.mp hd
    have hfirst : p.span.first ∈ xs.map fun x => Position.ofByte s.bytes x.start := by
      rw [← hplaces]
      exact List.mem_map_of_mem hp
    obtain ⟨x, hx, hx'⟩ := List.mem_map.mp hfirst
    exact pointsAt_diagnose h (hxs.subset hx) (hne x hx) hx'.symm (hvalid p hp)
  · have hpairs := List.pairwise_map.mpr (pairwise_places hxs)
    rw [← hplaces, List.pairwise_map] at hpairs
    exact List.pairwise_map.mpr hpairs

/-- Two lines with a wide character, carriage returns, and an error on each. -/
theorem positions_are_places_wide :
    ∃ s : Source, s.text = "(é 'x)\r\n (if é)\r\r\n" ∧ s.bytes.length < 2 ^ 32 - 1 ∧
      (s.report (Program.ofText s.text).problems).errors.map (·.span) =
        [⟨⟨1, 5⟩, ⟨1, 6⟩⟩, ⟨⟨2, 2⟩, ⟨2, 8⟩⟩] ∧
      ∀ d ∈ (s.report (Program.ofText s.text).problems).errors, s.PointsAt d := by
  let chars : List Char :=
    ['(', 'é', ' ', '\'', 'x', ')', '\r', '\n', ' ', '(', 'i', 'f', ' ', 'é', ')', '\r', '\r', '\n']
  let s : Source := ⟨"m", String.ofList chars⟩
  have hb : s.bytes.length < 2 ^ 32 - 1 := by
    rw [bytes_eq, String.toList_ofList]
    decide
  have hp : (Program.ofText s.text).problems.map (·.span) =
      [⟨⟨1, 5⟩, ⟨1, 6⟩⟩, ⟨⟨2, 2⟩, ⟨2, 8⟩⟩] := by
    rw [Program.ofText, Scan.ofText, String.toList_ofList]
    decide +kernel
  refine ⟨s, rfl, hb, ?_, (positions_are_places s hb).2.2.2.1⟩
  rw [errors_report, List.map_map, ← hp]
  rfl

end Source

end Lisplet
