import Lisplet.Proofs.Acceptance
import Lisplet.Proofs.Capping
import Lisplet.Proofs.Parsing

/-! A fault stays in its segment. The parser takes the segments of the tokens one after another; each
is a datum and gives its value, or gives one problem, and its neighbours read as if it were not
there. -/

namespace Lisplet

open Grammar

/-- Segments handled one after another, with room for some problems: a datum adds its value, any
other segment adds one problem, and the last problem that there is room for ends it. -/
inductive Handles : Nat → List (List Token) → Program → Prop where
  | full (segments : List (List Token)) : Handles 0 segments ⟨[], []⟩
  | done (room : Nat) : Handles room [] ⟨[], []⟩
  | datum {room segment rest v forms problems} : Datum (segment.map Token.kind) v →
      Handles (room + 1) rest ⟨forms, problems⟩ →
      Handles (room + 1) (segment :: rest) ⟨v :: forms, problems⟩
  | fault {room segment rest forms problems} (problem : Problem) :
      (∀ v, ¬ Datum (segment.map Token.kind) v) → Handles room rest ⟨forms, problems⟩ →
      Handles (room + 1) (segment :: rest) ⟨forms, problem :: problems⟩

theorem Handles.problems_length_le {room : Nat} {segments : List (List Token)} {p : Program}
    (h : Handles room segments p) : p.problems.length ≤ room := by
  induction h with
  | full => simp
  | done => simp
  | datum _ _ ih => exact ih
  | fault _ _ _ ih => simpa using ih

/-- A segment in its place reads as a value exactly if its own tokens are a datum. -/
theorem Segment.read_iff_datum (ts : List Token) :
    ∀ s ∈ (Forest.ofTokens ts).segments, ∀ v,
      s.read = .ok v ↔ Datum (s.tokens.map Token.kind) v := by
  induction ts using segments_induction with
  | done ts hd hs =>
    rw [hs]
    exact fun s hm => absurd hm List.not_mem_nil
  | step s post hne hf hs ih =>
    rw [hs, List.forall_mem_cons]
    refine ⟨fun v => ⟨fun h => ?_, fun h => ?_⟩, ih⟩
    · obtain ⟨t, rfl, ht⟩ := Segment.read_eq_ok.mp h
      exact t.datum_of_read ht
    · -- The datum is grouped into one tree, and that tree can only be this segment.
      obtain ⟨_, hg, t, rfl, ht⟩ := h.reads s.tokens rfl
      rw [hg.forest, Forest.segments_foldr_push] at hs
      obtain rfl : .tree t = s := (List.cons.inj hs).1
      exact ht

theorem Program.handles_ofSegments (room : Nat) (segments : List Segment)
    (h : ∀ s ∈ segments, ∀ v, s.read = .ok v ↔ Datum (s.tokens.map Token.kind) v) :
    Handles room (segments.map Segment.tokens) (ofSegments room segments) := by
  fun_induction ofSegments room segments with
  | case1 => exact .full _
  | case2 room => exact .done room
  | case3 room s rest v hr ih =>
    obtain ⟨hs, hrest⟩ := List.forall_mem_cons.mp h
    exact .datum ((hs v).mp hr) (ih hrest)
  | case4 room s rest problem hr ih =>
    obtain ⟨hs, hrest⟩ := List.forall_mem_cons.mp h
    refine .fault problem (fun v hv => ?_) (ih hrest)
    cases hr.symm.trans ((hs v).mpr hv)

namespace Report

/-- A list that fits is stored whole. -/
theorem ofList_eq {ds : List Diagnostic} (h : ds.length ≤ capacity) :
    ofList ds = ⟨ds, ds.length⟩ := by
  rw [ofList_eq_capped, capped, List.take_of_length_le h]

end Report

theorem Program.handles_ofTokens (tokens : List Token) :
    Handles Report.capacity (Segmentation.cut (beforeEnd tokens)) (ofTokens tokens) := by
  rw [← segments_tokens]
  exact handles_ofSegments Report.capacity _ (Segment.read_iff_datum tokens)

/-- On its way from `p` to `q` the cursor passes the tokens of a segment and no others. A datum gives
its value, and nothing is reported; any other segment gives no value, and one problem is. -/
inductive Consumes (p : Parser) (segment : List Token) : Option Value → Parser → Prop where
  | datum {v : Value} {q : Parser} : p.ahead = segment ++ q.ahead →
      Datum (segment.map Token.kind) v → q.problems = p.problems → Consumes p segment (some v) q
  | fault {q : Parser} (problem : Problem) : p.ahead = segment ++ q.ahead →
      (∀ v, ¬ Datum (segment.map Token.kind) v) → q.problems = p.problems ++ [problem] →
      Consumes p segment none q

namespace Parser

/-- The first segment ahead is the one that counting parentheses finds. -/
theorem first_of_segments {p : Parser} {s : Segment} {rest : List Segment}
    (h : p.segments = s :: rest) : (Segmentation.first (beforeEnd p.ahead)).1 = s.tokens := by
  have hc := segments_tokens (p.ahead ++ [⟨.eof, p.finish⟩])
  rw [← segments, h, beforeEnd_append_eof, List.map_cons] at hc
  cases he : beforeEnd p.ahead with
  | nil =>
    rw [he, Segmentation.cut] at hc
    exact absurd hc (List.cons_ne_nil _ _)
  | cons t more =>
    rw [he, Segmentation.cut] at hc
    exact (List.cons.inj hc).1.symm

theorem Takes.consumes {p q : Parser} {s : Segment} (h : Takes p s q) :
    Consumes p (Segmentation.first (beforeEnd p.ahead)).1 s.read.toOption q := by
  have hm : s ∈ p.segments := by
    rw [h.segments]
    exact List.mem_cons_self
  have hd := Segment.read_iff_datum _ s hm
  have hp := h.problems
  rw [first_of_segments h.segments]
  rw [Segment.problems] at hp
  cases hr : s.read with
  | ok v =>
    rw [hr, List.append_nil] at hp
    exact .datum h.tokens ((hd v).mp hr) hp
  | error problem =>
    rw [hr] at hp
    refine .fault problem h.tokens (fun v hv => ?_) hp
    cases hr.symm.trans ((hd v).mpr hv)

/-- A datum, or anything else that is no closing parenthesis, is consumed to its end. -/
theorem exists_consumes {p : Parser} {steps : Nat} (hs : p.ahead.length < steps)
    (he : p.current.kind ≠ .eof) (hp : p.current.kind ≠ .rparen) :
    ∃ value q, Parse.datum steps p = some (value, q) ∧
      Consumes p (Segmentation.first (beforeEnd p.ahead)).1 value q := by
  rcases exists_opens p.finish p.ahead fun us _ => exists_fills p.finish us with
    hd | ⟨span, rest, ha⟩ | ⟨t, mid, ho⟩
  · exact absurd (kind_headD_of_beforeEnd hd) he
  · rw [current, ha] at hp
    exact absurd rfl hp
  · obtain ⟨q, hd, ht⟩ := exists_datum_eq ho hs
    exact ⟨_, q, hd, ht.consumes⟩

end Parser

theorem Parser.parse_handles_segments (tokens : List Token) (source : Source) :
    (∀ (p : Parser) (steps : Nat), p.ahead.length < steps →
      p.current.kind ≠ .eof → p.current.kind ≠ .rparen →
        ∃ value q, Parse.datum steps p = some (value, q) ∧
          Consumes p (Segmentation.first (beforeEnd p.ahead)).1 value q) ∧
    ∃ program, (∀ steps, tokens.length < steps → parse steps tokens = some program) ∧
      program = Program.ofTokens tokens ∧
      let segments := Segmentation.cut (beforeEnd tokens)
      let report := source.report program.problems
      segments.flatten = beforeEnd tokens ∧ Handles 20 segments program ∧
        report.errors = program.problems.map source.diagnose ∧
        report.total = report.errors.length ∧ report.total ≤ 20 := by
  refine ⟨fun p steps => exists_consumes, Program.ofTokens tokens,
    fun steps => parse_eq_ofTokens, rfl, Segmentation.flatten_cut _, ?_⟩
  have hh := Program.handles_ofTokens tokens
  have hl : ((Program.ofTokens tokens).problems.map source.diagnose).length ≤ 20 := by
    rw [List.length_map]
    exact hh.problems_length_le
  have hr := Report.ofList_eq hl
  simp only [Source.report, hr]
  exact ⟨hh, trivial, trivial, hl⟩

end Lisplet
