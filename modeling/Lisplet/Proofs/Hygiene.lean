import Mathlib.Data.Set.Insert
import Lisplet.Proofs.Runs

/-! Names that do not occur do not matter. A body is evaluated over the frames of its caller,
so every formal and every local definition is visible to all that is called below it. Still,
two environments that differ only in names which no code mentions cannot be told apart, even
if such names are formals or are defined on the way. -/

namespace Lisplet

/-- A part that neither looks up a name of the set nor lists the names that are bound. -/
def Value.Discreet (N : Set Name) : Value → Prop
  | .sym name => name ∉ N
  | .builtin b => b.operation ≠ .symbols
  | _ => True

/-- No symbol of the set and no listing of names occurs in the value, at any depth. -/
def Value.Avoids (N : Set Name) (v : Value) : Prop := v.Everywhere (Value.Discreet N)

theorem pervasive_discreet (N : Set Name) : Pervasive (Value.Discreet N) fun _ => True where
  list _ _ := trivial
  seq _ := trivial
  scalar hs := by cases hs <;> exact ⟨trivial, trivial⟩
  literal _ _ := trivial
  collapse _ := trivial
  captured _ _ _ := trivial
  waiting _ _ _ := trivial
  names hb hs _ := (hb hs).elim

namespace Env

/-- The lookups of all other names agree, and what is bound to them avoids the set. -/
structure AgreeOutside (N : Set Name) (e e' : Env) : Prop where
  context : e'.context = e.context
  lookup : ∀ name, name ∉ N → e'.lookup name = e.lookup name
  left : e.Binds fun name v => name ∉ N → v.Avoids N
  right : e'.Binds fun name v => name ∉ N → v.Avoids N

namespace AgreeOutside

variable {N : Set Name} {e e' : Env}

theorem symm (h : e.AgreeOutside N e') : e'.AgreeOutside N e where
  context := h.context.symm
  lookup name hn := (h.lookup name hn).symm
  left := h.right
  right := h.left

theorem avoids_lookup (h : e.AgreeOutside N e') {name : Name} (hn : name ∉ N) :
    (e.lookup name).Avoids N := by
  rcases h.left.lookup name with hv | ⟨fault, hf⟩
  · exact hv hn
  · rw [hf]
    exact (pervasive_discreet N).everywhere_scalar (.error fault)

theorem bind (h : e.AgreeOutside N e') {name : Name} {v : Value} (hv : v.Avoids N) :
    (e.bind name v).AgreeOutside N (e'.bind name v) where
  context := h.context
  lookup m hm := by
    rw [lookup_bind, lookup_bind, h.lookup m hm]
  left := h.left.bind fun _ => hv
  right := h.right.bind fun _ => hv

theorem enclose (h : e.AgreeOutside N e') {frame : Frame}
    (hf : ∀ b ∈ frame, b.2.Avoids N) :
    (e.enclose frame).AgreeOutside N (e'.enclose frame) where
  context := h.context
  lookup m hm := by
    rw [lookup_enclose, lookup_enclose, h.lookup m hm]
  left := h.left.enclose fun b hb _ => hf b hb
  right := h.right.enclose fun b hb _ => hf b hb

end AgreeOutside

end Env

/-- Environments that agree outside a set of names, for code that avoids the set. -/
def outside (N : Set Name) : Coupling where
  toDiscipline := (pervasive_discreet N).discipline
  Related := Env.AgreeOutside N
  lookup {_ _ name} h hn :=
    have hm : name ∉ N := hn.here
    ⟨h.lookup name hm, trivial, h.avoids_lookup hm⟩
  symbols _ hb hs := (hb.2.here hs).elim
  bind h hv := h.bind hv.2
  enclose h hf := h.enclose fun b hb => (hf b hb).2

/-- Runs in such environments tell the same events. -/
def hygiene (N : Set Name) : Simulation := (outside N).sameEvents Env.AgreeOutside.context

namespace Value

theorem Returns.of_agreeOutside {N : Set Name} {node : Value} {e e' : Env} {o : Outcome Value}
    (hn : node.Avoids N) (h : e.AgreeOutside N e') (ho : node.Returns e o) :
    ∃ o', node.Returns e' o' ∧ o'.value = o.value ∧ o'.events = o.events ∧
      o.env.AgreeOutside N o'.env := by
  obtain ⟨depth, ho⟩ := ho
  obtain ⟨o', ho', hm⟩ := (hygiene N).tracks_evaluate (Nat.le_refl depth) hn h ho
  exact ⟨o', ⟨depth, ho'⟩, hm.value, hm.events.symm, hm.env⟩

/-- A node that avoids some names returns in both of two environments that agree outside these
names or in neither, with the same value and the same events, and they agree again at the end. -/
theorem returns_agree_outside {N : Set Name} {node : Value} {e e' : Env}
    (hn : node.Avoids N) (h : e.AgreeOutside N e') :
    ((∃ o, node.Returns e o) ↔ ∃ o', node.Returns e' o') ∧
      ∀ o o', node.Returns e o → node.Returns e' o' →
        o'.value = o.value ∧ o'.events = o.events ∧ o.env.AgreeOutside N o'.env := by
  refine ⟨⟨?_, ?_⟩, ?_⟩
  · rintro ⟨o, ho⟩
    obtain ⟨o', ho', -⟩ := ho.of_agreeOutside hn h
    exact ⟨o', ho'⟩
  · rintro ⟨o', ho'⟩
    obtain ⟨o, ho, -⟩ := ho'.of_agreeOutside hn h.symm
    exact ⟨o, ho⟩
  · intro o o' ho ho'
    -- The outcome that follows `o` is the given one, since a node has at most one.
    obtain ⟨o₁, ho₁, hv, ht, he⟩ := ho.of_agreeOutside hn h
    obtain rfl := ho'.unique ho₁
    exact ⟨hv, ht, he⟩

/-- The closure's formal has the name in which the two environments differ. -/
theorem returns_agree_outside_formal :
    ∃ e e' : Env, e.lookup "x" = .int 3 ∧ e'.lookup "x" = .int 4 ∧
      ∃ o o' : Outcome Value, o.value = .int 7 ∧ o'.value = o.value ∧ o'.events = o.events ∧
        o.env.AgreeOutside {"x"} o'.env := by
  let node : Value := .expr .plain [.lambda ["x"] (.sym "k") [], .int 1]
  let e : Env := ⟨[("k", .int 7)], [[("x", .int 3)]], .default⟩
  let e' : Env := ⟨[("x", .int 4)], [[("k", .int 7)]], .default⟩
  have hn : node.Avoids {"x"} := by
    simp [node, Avoids, Everywhere, Discreet, parts, partsOfAll, partsOfBindings]
  have hi : ∀ n, (Value.int n).Avoids {"x"} := fun n =>
    (pervasive_discreet _).everywhere_scalar (.int n)
  have h : e.AgreeOutside {"x"} e' := by
    constructor
    · rfl
    · intro name hm
      have hx : name ≠ "x" := hm
      by_cases hk : name = "k" <;>
        simp [e, e', Env.lookup, Env.get?, Env.frames, Frame.get?, hx, hk]
    · simp [e, Env.Binds, Env.frames, hi]
    · simp [e', Env.Binds, Env.frames, hi]
  have ho : node.Returns e ⟨.int 7, e, []⟩ := ⟨2, rfl⟩
  have ho' : node.Returns e' ⟨.int 7, e', []⟩ := ⟨2, rfl⟩
  exact ⟨e, e', rfl, rfl, _, _, rfl, (returns_agree_outside hn h).2 _ _ ho ho'⟩

end Value

end Lisplet
