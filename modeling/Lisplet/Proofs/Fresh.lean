import Mathlib.Data.List.Permutation
import Lisplet.Proofs.Ascending
import Lisplet.Proofs.Lexing
import Lisplet.Proofs.Outcomes

/-! What a fresh session binds: the builtins, the constants, and the definitions of the prelude, given
here as values. A body sees them through all frames of its callers, as long as no frame binds one of
their names again; the formals and the local names of the prelude itself do not. -/

namespace Lisplet

open Value Eval

namespace Prelude

/-- The form that calls a named function. -/
def call (name : Name) (args : List Value) : Value := .expr .plain (.sym name :: args)

def empty : Value := .lambda ["xs"] (call "==" [.sym "xs", .sym "nil"]) []

def fst : Value := .lambda ["xs"] (call "eval" [call "head" [.sym "xs"]]) []

def len : Value :=
  .lambda ["xs"]
    (.cond (call "empty" [.sym "xs"]) (.int 0)
      (call "+" [.int 1, call "len" [call "tail" [.sym "xs"]]])) []

def drop : Value :=
  .lambda ["n", "xs"]
    (.cond (.logic .or [call "<=" [.sym "n", .int 0], call "empty" [.sym "xs"]]) (.sym "xs")
      (call "drop" [call "-" [.sym "n", .int 1], call "tail" [.sym "xs"]])) []

def foldl : Value :=
  .lambda ["f", "acc", "xs"]
    (.cond (call "empty" [.sym "xs"]) (.sym "acc")
      (call "foldl" [.sym "f", call "f" [.sym "acc", call "fst" [.sym "xs"]],
        call "tail" [.sym "xs"]])) []

def map : Value :=
  .lambda ["f", "xs"]
    (.cond (call "empty" [.sym "xs"]) (.sym "nil")
      (call "join" [call "list" [call "f" [call "fst" [.sym "xs"]]],
        call "map" [.sym "f", call "tail" [.sym "xs"]]])) []

def filter : Value :=
  .lambda ["p", "xs"]
    (.cond (call "empty" [.sym "xs"]) (.sym "nil")
      (call "join"
        [.cond (call "p" [call "fst" [.sym "xs"]]) (call "list" [call "fst" [.sym "xs"]])
          (.sym "nil"),
         call "filter" [.sym "p", call "tail" [.sym "xs"]]])) []

/-- A comparison with the pivot, which is bound where the comparison is called. -/
def beside (relation : Name) : Value :=
  .lambda ["y"] (call relation [.sym "y", .sym "pivot"]) []

def sort : Value :=
  .lambda ["xs"]
    (.cond (call "empty" [.sym "xs"]) (.sym "nil")
      (.expr .plain
        [.expr .plain
          [.define "pivot" (call "fst" [.sym "xs"]), .define "rest" (call "tail" [.sym "xs"])],
         call "join"
          [call "sort" [call "filter" [beside "<", .sym "rest"]],
           call "list" [.sym "pivot"],
           call "sort" [call "filter" [beside ">=", .sym "rest"]]]])) []

/-- What the prelude binds, in order. -/
def bindings : List (Name × Value) :=
  [("not", .lambda ["x"] (.cond (.sym "x") (.bool false) (.bool true)) []),
   ("nil", .quoted []),
   ("empty", empty),
   ("fst", fst),
   ("len", len),
   ("drop", drop),
   ("foldl", foldl),
   ("map", map),
   ("filter", filter),
   ("sort", sort),
   ("odd", .lambda ["n"] (call "==" [call "%" [.sym "n", .int 2], .int 1]) []),
   ("even", .lambda ["n"] (call "==" [call "%" [.sym "n", .int 2], .int 0]) [])]

set_option maxRecDepth 4000 in
/-- Each text of the prelude reads as the definition of one of these values. -/
theorem definitions_read :
    List.Forall₂ (fun text b => Program.ofText text = ⟨[.define b.1 b.2], []⟩) definitions bindings := by
  unfold definitions bindings
  repeat' first | exact List.Forall₂.nil | refine List.Forall₂.cons ?_ ?_
  all_goals
    apply Program.ofText_of_chars rfl <;> decide +kernel

theorem forms_eq : forms = bindings.map fun b => .define b.1 b.2 := by
  have read {texts : List String} {bs : List (Name × Value)}
      (h : List.Forall₂ (fun text b => Program.ofText text = ⟨[.define b.1 b.2], []⟩) texts bs) :
      (texts.flatMap fun text => (Program.ofText text).forms) =
        bs.map fun b => .define b.1 b.2 := by
    induction h with
    | nil => rfl
    | cons h _ ih => rw [List.flatMap_cons, h, ih, List.map_cons, List.singleton_append]
  exact read definitions_read

/-- Everything that a fresh session binds, in order. -/
def globals : List (Name × Value) :=
  Builtin.catalogue.map (fun b => (b.name, .builtin b)) ++
    (Env.constants.map (fun c => (c.1, .float c.2)) ++ bindings)

/-- The builtins and what the prelude defines, which is all that the prelude refers to. -/
def vocabulary : List (Name × Value) :=
  Builtin.catalogue.map (fun b => (b.name, .builtin b)) ++ bindings

theorem mem_globals_of_mem_vocabulary {b : Name × Value} (h : b ∈ vocabulary) : b ∈ globals := by
  rcases List.mem_append.mp h with h | h
  · exact List.mem_append_left _ h
  · exact List.mem_append_right _ (List.mem_append_right _ h)

/-- The formals of the prelude and the names that its bodies define. -/
def locals : List Name := ["acc", "f", "n", "p", "pivot", "rest", "x", "xs", "y"]

end Prelude

theorem Value.all_definitions {bindings : List (Name × Value)}
    (h : ∀ b ∈ bindings, b.2.isLiteral ∧ b.2.isError = false) (env : Env) :
    ∃ vs events, Eval.all (evaluate 2) (bindings.map fun b => .define b.1 b.2) env =
      some ⟨vs, ⟨env.frame.bindAll bindings, env.outer, env.context⟩, events⟩ := by
  induction bindings generalizing env with
  | nil => exact ⟨[], [], rfl⟩
  | cons b rest ih =>
    obtain ⟨⟨hl, he⟩, hr⟩ := List.forall_mem_cons.mp h
    obtain ⟨events, hv⟩ := fixedAt_literal hl env
    have hd : evaluate 2 (.define b.1 b.2) env = some ⟨.nothing, env.bind b.1 b.2, _⟩ :=
      bind_eq_some.mpr ⟨_, _, rfl, bind_eq_some.mpr ⟨_, _, hv, settle_of_not_error he, rfl⟩, rfl⟩
    obtain ⟨vs, later, hrest⟩ := ih hr (env.bind b.1 b.2)
    exact ⟨_, _, all_cons_eq_some.mpr ⟨_, _, hd, hrest, rfl⟩⟩

namespace Session

open Prelude

theorem initial_eq (context : Context) : Env.initial context =
    ⟨(Frame.ofList (Builtin.catalogue.map fun b => (b.name, .builtin b))).bindAll
      (Env.constants.map fun c => (c.1, .float c.2)), [], context⟩ := by
  have hb {α : Type} (pair : α → Name × Value) (items : List α) (env : Env) :
      items.foldl (fun e a => e.bind (pair a).1 (pair a).2) env =
        ⟨env.frame.bindAll (items.map pair), env.outer, env.context⟩ := by
    induction items generalizing env with
    | nil => rfl
    | cons a rest ih => exact ih (env.bind (pair a).1 (pair a).2)
  have hbuiltins := hb (fun b => (b.name, .builtin b)) Builtin.catalogue (.empty context)
  have hconstants := hb (fun c => (c.1, .float c.2)) Env.constants
  rw [Env.initial, Env.withConstants, Env.withBuiltins, hconstants, hbuiltins]
  simp only [Env.empty, Frame.ofList]

/-- A fresh session has one frame, which binds exactly the globals. -/
theorem start_frame (context : Context) :
    (start context).1 = ⟨Frame.ofList globals, [], context⟩ := by
  have hb : ∀ b ∈ bindings, b.2.isLiteral ∧ b.2.isError = false := by
    simp [bindings, empty, fst, len, drop, foldl, map, filter, sort, quoted, isLiteral, isError, fault?]
  obtain ⟨vs, events, ha⟩ := all_definitions hb (Env.initial context)
  have he : evaluate Prelude.depth (.seq forms) (Env.initial context) =
      some ⟨collapse vs, ⟨(Env.initial context).frame.bindAll bindings, (Env.initial context).outer,
        (Env.initial context).context⟩, events ++ []⟩ := by
    rw [forms_eq]
    exact bind_eq_some.mpr ⟨_, _, ha, rfl, rfl⟩
  rw [start_eq, he, loaded, initial_eq]
  simp only [globals, Frame.ofList, Frame.bindAll, List.foldl_append]

end Session

theorem Prelude.nodup_globals : (globals.map Prod.fst).Nodup := by decide +kernel

theorem Prelude.not_global_of_local : ∀ name ∈ locals, name ∉ globals.map Prod.fst := by
  decide +kernel

/-- Every name that the prelude refers to shows what a fresh session binds to it. -/
def Env.Provides (env : Env) : Prop := ∀ b ∈ Prelude.vocabulary, env.lookup b.1 = b.2

theorem Session.start_provides (context : Context) : (start context).1.Provides := by
  intro b hb
  have hg : (Frame.ofList Prelude.globals).get? b.1 = some b.2 :=
    Frame.get?_bindAll_of_mem Prelude.nodup_globals (Prelude.mem_globals_of_mem_vocabulary hb) []
  rw [start_frame, Env.lookup, Env.get?_of_outer_eq_nil rfl, hg, Option.getD_some]

namespace Env.Provides

open Prelude

variable {env : Env}

theorem builtin (h : env.Provides) {b : Builtin} (hb : b ∈ Builtin.catalogue) :
    env.lookup b.name = .builtin b :=
  h (b.name, .builtin b) (List.mem_append_left _ (List.mem_map_of_mem hb))

theorem prelude (h : env.Provides) {name : Name} {value : Value} (hb : (name, value) ∈ bindings) :
    env.lookup name = value :=
  h (name, value) (List.mem_append_right _ hb)

theorem congr (h : env.Provides) {e : Env}
    (he : ∀ b ∈ vocabulary, e.get? b.1 = env.get? b.1) : e.Provides := by
  intro b hb
  rw [lookup_congr (he b hb), h b hb]

/-- Names that are no globals may be bound in any way. -/
theorem of_other (h : env.Provides) {names : List Name} (hn : ∀ name ∈ names, name ∈ locals)
    {e : Env} (he : ∀ name, name ∉ names → e.get? name = env.get? name) : e.Provides := by
  refine h.congr fun b hb => he b.1 fun hm => ?_
  exact not_global_of_local _ (hn _ hm) (List.mem_map_of_mem (mem_globals_of_mem_vocabulary hb))

end Env.Provides

end Lisplet
