import Mathlib.Data.List.Sort
import Mathlib.Data.String.Basic
import Lisplet.Proofs.Bindings

/-! Names in ascending order. The names of an environment are listed in this order whatever its
frames look like, and binding keeps a frame in it, so a frame in order is known by its lookups. -/

namespace Lisplet

theorem mem_insertName {m name : Name} {names : List Name} :
    m ∈ insertName name names ↔ m = name ∨ m ∈ names := by
  induction names with
  | nil => simp [insertName]
  | cons key rest ih =>
    unfold insertName
    split_ifs with he hl
    · subst key
      simp
    · simp
    · rw [List.mem_cons, ih, List.mem_cons]
      tauto

theorem pairwise_insertName {names : List Name} (h : names.Pairwise (· < ·)) (name : Name) :
    (insertName name names).Pairwise (· < ·) := by
  induction names with
  | nil => exact List.pairwise_singleton _ _
  | cons key rest ih =>
    obtain ⟨hk, hr⟩ := List.pairwise_cons.mp h
    unfold insertName
    split_ifs with he hl
    · exact h
    · refine List.pairwise_cons.mpr ⟨?_, h⟩
      intro m hm
      rcases List.mem_cons.mp hm with rfl | hm
      · exact hl
      · exact hl.trans (hk m hm)
    · refine List.pairwise_cons.mpr ⟨?_, ih hr⟩
      intro m hm
      rcases mem_insertName.mp hm with rfl | hm
      · exact lt_of_le_of_ne (not_lt.mp hl) (Ne.symm he)
      · exact hk m hm

namespace Frame

theorem get?_isSome (f : Frame) (name : Name) : (f.get? name).isSome ↔ name ∈ f.names := by
  induction f with
  | nil => simp [get?, names]
  | cons b rest ih =>
    obtain ⟨key, value⟩ := b
    have hn : names ((key, value) :: rest) = key :: names rest := rfl
    rw [hn, List.mem_cons, get?, ← ih]
    split_ifs with hk <;> simp [hk]

theorem names_bind (f : Frame) (name : Name) (value : Value) :
    (f.bind name value).names = insertName name f.names := by
  induction f with
  | nil => rfl
  | cons b rest ih =>
    obtain ⟨key, old⟩ := b
    have hn : names ((key, old) :: rest) = key :: names rest := rfl
    rw [hn, bind, insertName]
    split_ifs with he hl
    · subst key
      rfl
    · rfl
    · rw [← ih]
      rfl

theorem Sorted.bind {f : Frame} (h : f.Sorted) (name : Name) (value : Value) :
    (f.bind name value).Sorted := by
  rw [Sorted, names_bind]
  exact pairwise_insertName h name

theorem Sorted.get?_eq_none {key : Name} {value : Value} {f : Frame}
    (h : Sorted ((key, value) :: f)) {name : Name} (hn : name ≤ key) : f.get? name = none := by
  rw [← Option.not_isSome_iff_eq_none, get?_isSome]
  intro hm
  exact absurd ((List.pairwise_cons.mp h).1 name hm) (not_lt.mpr hn)

/-- The first name of a frame in order is not above any other name that it binds. -/
theorem Sorted.head_le {key : Name} {value : Value} {f : Frame} (h : Sorted ((key, value) :: f))
    {name : Name} (hn : (get? ((key, value) :: f) name).isSome) : key ≤ name := by
  by_contra hl
  have hlt : name < key := not_le.mp hl
  rw [get?, if_neg hlt.ne, h.get?_eq_none hlt.le] at hn
  cases hn

theorem Sorted.ext {f g : Frame} (hf : f.Sorted) (hg : g.Sorted)
    (h : ∀ name, f.get? name = g.get? name) : f = g := by
  induction f generalizing g with
  | nil =>
    cases g with
    | nil => rfl
    | cons b rest => simpa [get?] using h b.1
  | cons b rest ih =>
    obtain ⟨key, value⟩ := b
    cases g with
    | nil => simpa [get?] using h key
    | cons b' rest' =>
      obtain ⟨key', value'⟩ := b'
      have hk : key = key' := by
        apply le_antisymm
        · apply hf.head_le
          rw [h key']
          simp [get?]
        · apply hg.head_le
          rw [← h key]
          simp [get?]
      subst key'
      have hv : value = value' := by simpa [get?] using h key
      subst value'
      have hr : rest = rest' := by
        refine ih (List.pairwise_cons.mp hf).2 (List.pairwise_cons.mp hg).2 ?_
        intro name
        by_cases hn : name = key
        · rw [hf.get?_eq_none hn.le, hg.get?_eq_none hn.le]
        · simpa [get?, hn] using h name
      rw [hr]

end Frame

namespace Env

theorem get?_isSome (env : Env) (name : Name) :
    (env.get? name).isSome ↔ ∃ f ∈ env.frames, name ∈ f.names := by
  simp only [get?, List.findSome?_isSome_iff, Frame.get?_isSome]

theorem mem_symbols {env : Env} {name : Name} : name ∈ env.symbols ↔ (env.get? name).isSome := by
  have hm (names : List Name) : name ∈ names.foldr insertName [] ↔ name ∈ names := by
    induction names with
    | nil => simp
    | cons m rest ih => rw [List.foldr_cons, mem_insertName, ih, List.mem_cons]
  rw [symbols, hm, List.mem_flatMap, get?_isSome]

theorem pairwise_symbols (env : Env) : env.symbols.Pairwise (· < ·) := by
  unfold symbols
  generalize env.frames.flatMap Frame.names = names
  induction names with
  | nil => exact .nil
  | cons m rest ih => exact pairwise_insertName ih m

/-- Which names are listed depends on lookups only. -/
theorem symbols_congr {e e' : Env} (h : ∀ name, e'.get? name = e.get? name) :
    e'.symbols = e.symbols := by
  refine e'.pairwise_symbols.eq_of_mem_iff e.pairwise_symbols ?_
  intro name
  rw [mem_symbols, mem_symbols, h]

end Env

end Lisplet
