import Lisplet.Proofs.Ascending
import Lisplet.Proofs.Runs

/-! Only visible bindings matter. A call puts a frame on top of its caller's, so the chain of
frames records how a value came to be evaluated; but evaluation reads the chain through lookups
alone, and sees the same in one frame that holds the innermost binding of each name. -/

namespace Lisplet

theorem Frame.get?_map_names (names : List Name) (value : Name → Value) (m : Name) :
    Frame.get? (names.map fun name => (name, value name)) m =
      if m ∈ names then some (value m) else none := by
  induction names with
  | nil => rfl
  | cons name rest ih =>
    rw [List.map_cons, get?, ih]
    by_cases hm : m = name
    · simp [hm]
    · simp [hm]

namespace Env

/-- The environment with one frame in which each visible name has its innermost binding. -/
def flat (env : Env) : Env :=
  ⟨env.symbols.map fun name => (name, env.lookup name), [], env.context⟩

theorem get?_flat (env : Env) (name : Name) : env.flat.get? name = env.get? name := by
  have ho : env.flat.outer = [] := rfl
  rw [get?_of_outer_eq_nil ho, flat, Frame.get?_map_names]
  cases hg : env.get? name with
  | none => simp [mem_symbols, hg]
  | some value => simp [mem_symbols, lookup, hg]

theorem sorted_flat (env : Env) : env.flat.frame.Sorted := by
  have hn : env.flat.frame.names = env.symbols := by
    simp [flat, Frame.names, Function.comp_def]
  rw [Frame.Sorted, hn]
  exact env.pairwise_symbols

theorem Grows.sorted {e e₁ : Env} (h : e.Grows e₁) (hs : e.frame.Sorted) : e₁.frame.Sorted := by
  induction h with
  | refl => exact hs
  | bind _ name value ih => exact ih.bind name value

/-- Two environments in which every name is bound to the same. -/
structure SameBindings (e e' : Env) : Prop where
  context : e'.context = e.context
  get? : ∀ name, e'.get? name = e.get? name

namespace SameBindings

variable {e e' : Env}

theorem symm (h : e.SameBindings e') : e'.SameBindings e :=
  ⟨h.context.symm, fun name => (h.get? name).symm⟩

theorem bind (h : e.SameBindings e') (name : Name) (value : Value) :
    (e.bind name value).SameBindings (e'.bind name value) := by
  refine ⟨h.context, ?_⟩
  intro m
  rw [get?_bind, get?_bind, h.get? m]

theorem enclose (h : e.SameBindings e') (frame : Frame) :
    (e.enclose frame).SameBindings (e'.enclose frame) := by
  refine ⟨h.context, ?_⟩
  intro m
  rw [get?_enclose, get?_enclose, h.get? m]

/-- A single frame in order is the flattening of every environment with the same bindings. -/
theorem eq_flat (h : e.SameBindings e') (ho : e'.outer = []) (hs : e'.frame.Sorted) :
    e' = e.flat := by
  have hf : e'.frame = e.flat.frame := by
    refine hs.ext e.sorted_flat ?_
    intro name
    have hl : e.flat.outer = [] := rfl
    rw [← get?_of_outer_eq_nil ho, ← get?_of_outer_eq_nil hl, h.get?, get?_flat]
  obtain ⟨frame, outer, context⟩ := e'
  obtain rfl : outer = [] := ho
  obtain rfl : frame = e.flat.frame := hf
  obtain rfl : context = e.context := h.context
  rfl

end SameBindings

theorem sameBindings_flat (env : Env) : env.SameBindings env.flat := ⟨rfl, env.get?_flat⟩

end Env

/-- Environments with the same bindings, for any code. -/
def visible : Coupling where
  toDiscipline := .free
  Related := Env.SameBindings
  lookup {_ _ name} h _ := ⟨by rw [Env.lookup, Env.lookup, h.get? name], trivial⟩
  symbols h _ _ := Env.symbols_congr h.get?
  bind {_ _ name v} h _ := h.bind name v
  enclose {_ _ frame} h _ := h.enclose frame

/-- Runs in such environments tell the same events. -/
def sameView : Simulation := visible.sameEvents Env.SameBindings.context

/-- An outcome as seen through the flattening of its environment. -/
def Outcome.flat {α : Type} (o : Outcome α) : Outcome α := ⟨o.value, o.env.flat, o.events⟩

namespace Value

theorem Returns.of_sameBindings {node : Value} {e e' : Env} {o : Outcome Value}
    (h : e.SameBindings e') (ho : node.Returns e o) :
    ∃ o', node.Returns e' o' ∧ o'.value = o.value ∧ o'.events = o.events ∧
      o.env.SameBindings o'.env ∧ e'.Grows o'.env := by
  obtain ⟨depth, ho⟩ := ho
  obtain ⟨o', ho', hm⟩ := sameView.tracks_evaluate (Nat.le_refl depth) trivial h ho
  exact ⟨o', ⟨depth, ho'⟩, hm.value, hm.events.symm, hm.env, hm.right⟩

theorem Returns.flat {node : Value} {env : Env} {o : Outcome Value} (h : node.Returns env o) :
    node.Returns env.flat o.flat := by
  obtain ⟨⟨value, last, events⟩, ho', hv, ht, hb, hgrow⟩ := h.of_sameBindings env.sameBindings_flat
  have hl : last = o.env.flat := hb.eq_flat hgrow.outer (hgrow.sorted env.sorted_flat)
  have hv : value = o.value := hv
  have ht : events = o.events := ht
  rw [hv, hl, ht] at ho'
  exact ho'

/-- The outcomes in a flattened environment are the flattened outcomes: a node returns in both
environments or in neither, with the same value and events, and leaves the same to be seen. -/
theorem returns_flat_iff (node : Value) (env : Env) (o' : Outcome Value) :
    node.Returns env.flat o' ↔ ∃ o, node.Returns env o ∧ o' = o.flat := by
  constructor
  · intro h
    obtain ⟨o, ho, -⟩ := h.of_sameBindings env.sameBindings_flat.symm
    exact ⟨o, ho, h.unique ho.flat⟩
  · rintro ⟨o, ho, rfl⟩
    exact ho.flat

end Value

end Lisplet
