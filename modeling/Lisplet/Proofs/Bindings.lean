import Lisplet.Env

/-! How binding a name and entering a frame show in lookups and in the set of bindings of a
chain of frames. None of it needs frames to be in order. -/

namespace Lisplet

namespace Frame

theorem get?_bind (f : Frame) (name : Name) (value : Value) (m : Name) :
    (f.bind name value).get? m = if m = name then some value else f.get? m := by
  induction f with
  | nil => simp [bind, get?]
  | cons b rest ih =>
    obtain ⟨key, old⟩ := b
    by_cases hk : name = key
    · subst key
      by_cases hm : m = name <;> simp [bind, get?, hm]
    · by_cases hl : name < key
      · by_cases hm : m = name <;> simp [bind, get?, hk, hl, hm]
      · simp only [bind, hk, hl, ↓reduceIte, get?, ih]
        by_cases hm : m = name
        · simp [hm, hk]
        · simp [hm]

theorem mem_bind {f : Frame} {name : Name} {value : Value} {b : Name × Value}
    (h : b ∈ f.bind name value) : b = (name, value) ∨ b ∈ f := by
  induction f with
  | nil => simpa [bind] using h
  | cons c rest ih => grind [bind]

theorem mem_bindAll {bindings : List (Name × Value)} {f : Frame} {b : Name × Value}
    (h : b ∈ f.bindAll bindings) : b ∈ bindings ∨ b ∈ f := by
  induction bindings generalizing f with
  | nil => exact Or.inr h
  | cons c rest ih =>
    rcases ih h with h | h
    · exact Or.inl (List.mem_cons_of_mem c h)
    · rcases mem_bind h with rfl | h
      · exact Or.inl List.mem_cons_self
      · exact Or.inr h

theorem get?_bindAll_of_not_mem {bindings : List (Name × Value)} {name : Name}
    (h : name ∉ bindings.map Prod.fst) (f : Frame) : (f.bindAll bindings).get? name = f.get? name := by
  induction bindings generalizing f with
  | nil => rfl
  | cons b rest ih =>
    rw [List.map_cons, List.mem_cons, not_or] at h
    obtain ⟨hb, hr⟩ := h
    have hs : f.bindAll (b :: rest) = (f.bind b.1 b.2).bindAll rest := rfl
    rw [hs, ih hr, get?_bind, if_neg hb]

theorem get?_bindAll_of_mem {bindings : List (Name × Value)} (hn : (bindings.map Prod.fst).Nodup)
    {b : Name × Value} (hb : b ∈ bindings) (f : Frame) :
    (f.bindAll bindings).get? b.1 = some b.2 := by
  induction bindings generalizing f with
  | nil => cases hb
  | cons c rest ih =>
    rw [List.map_cons, List.nodup_cons] at hn
    have hs : f.bindAll (c :: rest) = (f.bind c.1 c.2).bindAll rest := rfl
    rw [hs]
    rcases List.mem_cons.mp hb with rfl | hb
    · rw [get?_bindAll_of_not_mem hn.1, get?_bind, if_pos rfl]
    · exact ih hn.2 hb _

theorem mem_of_get? {f : Frame} {name : Name} {value : Value}
    (h : f.get? name = some value) : (name, value) ∈ f := by
  induction f with
  | nil => simp [get?] at h
  | cons b rest ih => grind [get?]

end Frame

namespace Env

/-- What a run can do to an environment: it binds names in the innermost frame. -/
inductive Grows (e : Env) : Env → Prop where
  | refl : e.Grows e
  | bind {e₁ : Env} (h : e.Grows e₁) (name : Name) (value : Value) : e.Grows (e₁.bind name value)

namespace Grows

variable {e e₁ e₂ : Env}

theorem trans (h : e.Grows e₁) (h' : e₁.Grows e₂) : e.Grows e₂ := by
  induction h' with
  | refl => exact h
  | bind _ name value ih => exact ih.bind name value

theorem outer (h : e.Grows e₁) : e₁.outer = e.outer := by
  induction h with
  | refl => rfl
  | bind _ _ _ ih => exact ih

theorem context (h : e.Grows e₁) : e₁.context = e.context := by
  induction h with
  | refl => rfl
  | bind _ _ _ ih => exact ih

end Grows

theorem get?_eq (env : Env) (name : Name) :
    env.get? name = (env.frame.get? name).or (env.outer.findSome? (·.get? name)) := by
  simp only [get?, frames, List.findSome?_cons]
  cases env.frame.get? name <;> rfl

theorem get?_of_outer_eq_nil {env : Env} (h : env.outer = []) (name : Name) :
    env.get? name = env.frame.get? name := by
  rw [get?_eq, h]
  exact Option.or_none

theorem get?_bind (env : Env) (name : Name) (value : Value) (m : Name) :
    (env.bind name value).get? m = if m = name then some value else env.get? m := by
  rw [get?_eq, get?_eq]
  simp only [bind, Frame.get?_bind]
  split <;> simp

theorem get?_enclose (env : Env) (frame : Frame) (m : Name) :
    (env.enclose frame).get? m = (frame.get? m).or (env.get? m) := by
  rw [get?_eq]
  rfl

theorem lookup_bind (env : Env) (name : Name) (value : Value) (m : Name) :
    (env.bind name value).lookup m = if m = name then value else env.lookup m := by
  simp only [lookup, get?_bind]
  split <;> rfl

theorem lookup_enclose (env : Env) (frame : Frame) (m : Name) :
    (env.enclose frame).lookup m = (frame.get? m).getD (env.lookup m) := by
  simp only [lookup, get?_enclose]
  cases frame.get? m <;> rfl

theorem lookup_congr {e env : Env} {name : Name} (h : e.get? name = env.get? name) :
    e.lookup name = env.lookup name := by
  rw [lookup, h, lookup]

/-- Every binding of every frame, shadowed ones included, has the property. -/
def Binds (P : Name → Value → Prop) (env : Env) : Prop := ∀ f ∈ env.frames, ∀ b ∈ f, P b.1 b.2

section

variable {P : Name → Value → Prop} {env : Env}

theorem Binds.bind {name : Name} {value : Value} (h : env.Binds P) (hv : P name value) :
    (env.bind name value).Binds P := by
  intro f hf b hb
  rcases List.mem_cons.mp hf with rfl | hf
  · rcases Frame.mem_bind hb with rfl | hb
    · exact hv
    · exact h _ List.mem_cons_self b hb
  · exact h f (List.mem_cons_of_mem _ hf) b hb

theorem Binds.enclose {frame : Frame} (h : env.Binds P) (hf : ∀ b ∈ frame, P b.1 b.2) :
    (env.enclose frame).Binds P := by
  intro f hm
  rcases List.mem_cons.mp hm with rfl | hm
  · exact hf
  · exact h f hm

theorem Binds.get? {name : Name} {value : Value} (h : env.Binds P)
    (hg : env.get? name = some value) : P name value := by
  obtain ⟨f, hf, hg⟩ := List.exists_of_findSome?_eq_some hg
  exact h f hf _ (Frame.mem_of_get? hg)

/-- A looked up value is a bound one or the fault of a name without binding. -/
theorem Binds.lookup (h : env.Binds P) (name : Name) :
    P name (env.lookup name) ∨ ∃ fault, env.lookup name = .error fault := by
  unfold Env.lookup
  cases hg : env.get? name with
  | none => exact Or.inr ⟨_, rfl⟩
  | some value => exact Or.inl (h.get? hg)

end

end Env

end Lisplet
