import Lisplet.Proofs.Faults
import Lisplet.Proofs.Lexing

/-! A session does not depend on how its source is split. The forms of two sources with a line
feed between them are those of the one and then those of the other, and the answer to a source is
made of the results of its forms alone, without regard to how many forms there were. -/

namespace Lisplet

theorem Grammar.Data.append {ks ls : List Token.Kind} {vs ws : List Value} :
    Data ks vs → Data ls ws → Data (ks ++ ls) (vs ++ ws)
  | .nil, h => h
  | .cons hd ht, h => by
    rw [List.append_assoc]
    exact .cons hd (ht.append h)

namespace Lexeme

theorem Good.endsBefore_newline {piece : Lexeme} (h : piece.Good) : piece.EndsBefore '\n' := by
  cases piece with
  | unterminated body => exact h _ rfl
  | comment text => rfl
  | _ => trivial

theorem cut_newline (b : List Char) : cut ('\n' :: b) = .blank '\n' :: cut b := rfl

end Lexeme

namespace Program

open Lexeme

theorem ofText_append_newline {s₁ s₂ : String} (h₁ : (ofText s₁).problems = [])
    (h₂ : (ofText s₂).problems = []) :
    ofText (s₁ ++ "\n" ++ s₂) = ⟨(ofText s₁).forms ++ (ofText s₂).forms, []⟩ := by
  obtain ⟨hg₁, hd₁⟩ := ofText_eq_iff.mp (eq_of_problems_eq_nil h₁)
  obtain ⟨hg₂, hd₂⟩ := ofText_eq_iff.mp (eq_of_problems_eq_nil h₂)
  have ht : (s₁ ++ "\n" ++ s₂).toList = s₁.toList ++ '\n' :: s₂.toList := by simp
  have hc : cut (s₁.toList ++ '\n' :: s₂.toList) =
      cut s₁.toList ++ .blank '\n' :: cut s₂.toList := by
    have hstop : isStop '\n' := by decide
    rw [cut_append hstop fun piece hm => (hg₁ piece hm).endsBefore_newline, cut_newline]
  rw [ofText_eq_iff, ht, hc]
  constructor
  · exact List.forall_mem_append.mpr ⟨hg₁, List.forall_mem_cons.mpr ⟨good_blank '\n', hg₂⟩⟩
  · rw [kinds_append, kinds_blank]
    exact hd₁.append hd₂

end Program

namespace Session

/-- The results that are shown: those other than `nothing`. -/
def shown (vs : List Value) : List Value := vs.filter (!·.isNothing)

/-- Shown results as one value. -/
def packed : List Value → Value
  | [] => .nothing
  | [v] => v
  | vs => .seq vs

theorem pack_eq_packed (vs : List Value) : Value.pack vs = packed (shown vs) := rfl

theorem shown_append (vs ws : List Value) : shown (vs ++ ws) = shown vs ++ shown ws :=
  List.filter_append vs ws

/-- A sequence that a form gives has several items, and `nothing` is not among them. -/
theorem pack_items {items : List Value} (h : keeping.Result (.seq items)) :
    Value.pack items = .seq items := by
  have hk : (Value.seq items).Kept := h ⟨rfl, rfl⟩
  obtain ⟨two, -⟩ := hk.1.of_seq
  have hs : shown items = items := by
    refine List.filter_eq_self.mpr ?_
    intro v hv
    have hp : v.Proper := ((Value.everywhere_seq.mp hk.2).2 v hv).here.proper
    simp [hp.2]
  rw [pack_eq_packed, hs]
  match items, two with
  | _ :: _ :: _, _ => rfl

theorem withoutNothing_of_result {v : Value} (h : keeping.Result v) : v.withoutNothing = v := by
  cases v with
  | seq items => exact pack_items h
  | _ => rfl

theorem answerOf_eq_packed {vs : List Value} (h : ∀ v ∈ vs, keeping.Result v) :
    answerOf vs = packed (shown vs) := by
  match vs, h with
  | [], _ => rfl
  | [v], h =>
    have hv : answerOf [v] = v := withoutNothing_of_result (h v List.mem_cons_self)
    rw [hv]
    cases v <;> rfl
  | _ :: _ :: _, _ => rfl

/-- Running the source ends, with this answer in this environment and in no other way. -/
def EndsWith (text : String) (env : Env) (answer : Except Report Value) (last : Env) : Prop :=
  ∀ a e, Executes text env a e ↔ a = answer ∧ e = last

theorem Reached.endsWith {context : Context} {env : Env} (h : Reached context env) {text : String}
    {forms : List Value} (hp : Program.ofText text = ⟨forms, []⟩) {vs : List Value} {last : Env}
    (hr : Value.Runs forms env vs last) : EndsWith text env (.ok (packed (shown vs))) last := by
  have hn : ∀ form ∈ forms, keeping.Node form := by
    intro form hm
    refine keeping_node (Program.written_forms text form ?_)
    rw [hp]
    exact hm
  have ha : answerOf vs = packed (shown vs) :=
    answerOf_eq_packed (keeping.results_of_runs hn h.binds_kept hr).1
  intro a e
  rw [executes_iff (by rw [hp]), hp]
  constructor
  · rintro ⟨ws, hw, rfl⟩
    obtain ⟨rfl, rfl⟩ := hw.unique hr
    exact ⟨by rw [ha], rfl⟩
  · rintro ⟨rfl, rfl⟩
    exact ⟨vs, hr, by rw [ha]⟩

theorem endsWith_of_problems {text : String} (h : (Program.ofText text).problems ≠ [])
    (env : Env) : ∃ report, EndsWith text env (.error report) env := by
  refine ⟨(Source.mk sourceName text).report (Program.ofText text).problems, ?_⟩
  intro a e
  constructor
  · rintro ⟨depth, events, ho⟩
    rw [execute_of_problems h] at ho
    cases ho
    exact ⟨rfl, rfl⟩
  · rintro ⟨rfl, rfl⟩
    exact ⟨0, [], execute_of_problems h 0 e⟩

/-- In every state of a session, two sources without problems do the same as one: if the forms of
the first and then those of the second end, all answers are the results other than `nothing`, and
the frames are the same. They end together or in turn or not at all. A source with problems
changes nothing. -/
theorem endsWith_append {context : Context} {env : Env} (h : Reached context env)
    {s₁ s₂ : String} (h₁ : (Program.ofText s₁).problems = [])
    (h₂ : (Program.ofText s₂).problems = []) :
    (∀ vs mid ws last, Value.Runs (Program.ofText s₁).forms env vs mid →
      Value.Runs (Program.ofText s₂).forms mid ws last →
        EndsWith (s₁ ++ "\n" ++ s₂) env (.ok (packed (shown vs ++ shown ws))) last ∧
        EndsWith s₁ env (.ok (packed (shown vs))) mid ∧
        EndsWith s₂ mid (.ok (packed (shown ws))) last) ∧
    (∀ a last, Executes (s₁ ++ "\n" ++ s₂) env a last →
      ∃ vs mid ws, Value.Runs (Program.ofText s₁).forms env vs mid ∧
        Value.Runs (Program.ofText s₂).forms mid ws last) ∧
    ∀ text, (Program.ofText text).problems ≠ [] →
      ∀ e, ∃ report, EndsWith text e (.error report) e := by
  have hp := Program.ofText_append_newline h₁ h₂
  refine ⟨?_, ?_, fun text hp e => endsWith_of_problems hp e⟩
  · intro vs mid ws last hv hw
    have hall := h.endsWith hp (Value.runs_append.mpr ⟨vs, mid, ws, hv, hw, rfl⟩)
    rw [shown_append] at hall
    have hfirst : EndsWith s₁ env (.ok (packed (shown vs))) mid :=
      h.endsWith (Program.eq_of_problems_eq_nil h₁) hv
    have hmid : Reached context mid := .execute h ((hfirst _ _).mpr ⟨rfl, rfl⟩)
    exact ⟨hall, hfirst, hmid.endsWith (Program.eq_of_problems_eq_nil h₂) hw⟩
  · intro a last he
    obtain ⟨us, hr, -⟩ := (executes_iff (by rw [hp])).mp he
    rw [hp] at hr
    obtain ⟨vs, mid, ws, hv, hw, -⟩ := Value.runs_append.mp hr
    exact ⟨vs, mid, ws, hv, hw⟩

/-- The first source ends in a comment, and one of its two results is not shown. -/
theorem endsWith_append_comment :
    ∃ env last, Reached .default env ∧ last.get? "x" = some (.int 1) ∧
      EndsWith ("(define x 1) (2 3) ; one" ++ "\n" ++ "'(x)") env
        (.ok (.seq [.seq [.int 2, .int 3], .quoted [.sym "x"]])) last ∧
      EndsWith "(define x 1) (2 3) ; one" env (.ok (.seq [.int 2, .int 3])) last ∧
      EndsWith "'(x)" last (.ok (.quoted [.sym "x"])) last := by
  have h₁ : Program.ofText "(define x 1) (2 3) ; one" =
      ⟨[.define "x" (.int 1), .expr .plain [.int 2, .int 3]], []⟩ := by
    apply Program.ofText_of_chars rfl <;> decide +kernel
  have h₂ : Program.ofText "'(x)" = ⟨[.quoted [.sym "x"]], []⟩ := by
    apply Program.ofText_of_chars rfl <;> decide +kernel
  obtain ⟨env, henv⟩ : ∃ env, Reached .default env := ⟨_, .start⟩
  let last := env.bind "x" (.int 1)
  have hd : (Value.define "x" (.int 1)).Returns env ⟨.nothing, last, _⟩ := ⟨2, rfl⟩
  have hs : (Value.expr .plain [.int 2, .int 3]).Returns last ⟨.seq [.int 2, .int 3], last, _⟩ :=
    ⟨2, rfl⟩
  have hq : (Value.quoted [.sym "x"]).Returns last ⟨.quoted [.sym "x"], last, _⟩ := ⟨1, rfl⟩
  have hv : Value.Runs (Program.ofText "(define x 1) (2 3) ; one").forms env
      [.nothing, .seq [.int 2, .int 3]] last := by
    rw [h₁]
    exact .cons hd (.cons hs (.nil last))
  have hw : Value.Runs (Program.ofText "'(x)").forms last [.quoted [.sym "x"]] last := by
    rw [h₂]
    exact .cons hq (.nil last)
  have hend := (endsWith_append henv (by rw [h₁]) (by rw [h₂])).1 _ _ _ _ hv hw
  exact ⟨env, last, henv, by simp [last, Env.get?_bind], hend⟩

end Session

end Lisplet
