import Lisplet.Proofs.Simulation

/-! Single runs of evaluation. What a discipline says of nodes and bindings it says of the
result and of the bindings that a run leaves. More depth never changes a result, so a node
returns at most one outcome in an environment. -/

namespace Lisplet

namespace Discipline

/-- Equal environments, with bindings as the discipline has them. -/
def diagonal (D : Discipline) : Coupling where
  toDiscipline := D
  Related e e' := e' = e ∧ e.Binds fun _ v => D.Bound v
  lookup {e e' name} h hn := by
    refine ⟨by rw [h.1], ?_⟩
    rcases h.2.lookup name with hr | ⟨fault, hf⟩
    · exact D.found hr
    · rw [hf]
      exact D.scalar (.error fault)
  symbols h _ _ := by rw [h.1]
  bind h hv := ⟨by rw [h.1], h.2.bind hv⟩
  enclose h hf := ⟨by rw [h.1], h.2.enclose hf⟩

/-- A run beside itself. -/
def single (D : Discipline) : Simulation :=
  D.diagonal.sameEvents fun h => by rw [h.1]

/-- A run from a node ends with a result, in an environment with bindings as at the start. -/
theorem result_of_evaluate (D : Discipline) {depth : Nat} {node : Value} {env : Env}
    {o : Outcome Value} (hn : D.Node node) (hb : env.Binds fun _ v => D.Bound v)
    (h : Value.evaluate depth node env = some o) :
    D.Result o.value ∧ o.env.Binds fun _ v => D.Bound v := by
  obtain ⟨o', -, hm⟩ := D.single.tracks_evaluate (Nat.le_refl depth) hn ⟨rfl, hb⟩ h
  exact ⟨hm.holds.1, hm.env.2⟩

/-- No restriction at all. -/
def free : Discipline where
  Node _ := True
  Result _ := True
  Bound _ := True
  cells _ _ _ _ := trivial
  operands _ _ _ := trivial
  branches _ := ⟨trivial, trivial, trivial⟩
  defined _ := trivial
  code _ := trivial
  node _ _ := trivial
  literal _ _ := trivial
  scalar _ := trivial
  quoted _ := trivial
  collapse _ := trivial
  sequence _ _ _ := trivial
  body _ := trivial
  captured _ _ _ := trivial
  waiting _ _ _ := trivial
  names _ _ _ := trivial
  bound _ _ := trivial
  found _ := trivial

end Discipline

/-- Where nothing is restricted, a run that follows another one is the same run. -/
theorem Simulation.Follows.eq_some {α : Type} {P : α → Prop} {x y : Eval α}
    (h : Discipline.free.single.Follows P x y) {env : Env} {o : Outcome α} (ho : x env = some o) :
    y env = some o := by
  have any : env.Binds fun _ v => Discipline.free.Bound v := fun _ _ _ _ => trivial
  obtain ⟨⟨value, e, events⟩, ho', hm⟩ := h ⟨rfl, any⟩ ho
  have hv : value = o.value := hm.value
  have he : e = o.env := hm.env.1
  have ht : o.events = events := hm.events
  rw [ho', hv, he, ← ht]

namespace Value

theorem evaluate_mono {depth depth' : Nat} {node : Value} {env : Env} {o : Outcome Value}
    (h : depth ≤ depth') (ho : evaluate depth node env = some o) :
    evaluate depth' node env = some o :=
  (Discipline.free.single.tracks_evaluate h trivial).eq_some ho

/-- Some depth suffices to evaluate the node, and this is the outcome. -/
def Returns (node : Value) (env : Env) (o : Outcome Value) : Prop :=
  ∃ depth, evaluate depth node env = some o

theorem Returns.unique {node : Value} {env : Env} {o o' : Outcome Value}
    (h : node.Returns env o) (h' : node.Returns env o') : o = o' := by
  obtain ⟨depth, h⟩ := h
  obtain ⟨depth', h'⟩ := h'
  have hm := evaluate_mono (Nat.le_max_left depth depth') h
  rw [evaluate_mono (Nat.le_max_right depth depth') h'] at hm
  exact (Option.some.inj hm).symm

end Value

end Lisplet
