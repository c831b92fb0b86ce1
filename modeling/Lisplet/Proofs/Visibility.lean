import Mathlib.Data.List.Induction
import Mathlib.Tactic.Common
import Lisplet.Proofs.Ascending
import Lisplet.Proofs.Encoding

/-! Which names are visible. Texts are in the order of their bytes, so the names of an environment are
listed in that order. However a chain of frames is put together, what a name stands for is the last
binding of it that was made in the innermost frame with one, and the names with such a binding are
those listed. -/

namespace Lisplet

namespace Text

theorem encode_lt {c d : Char} (h : c < d) (x y : List UInt8) :
    String.utf8EncodeChar c ++ x < String.utf8EncodeChar d ++ y := by
  have hv : c.val.toNat < d.val.toNat := h
  have hd : d.val.toNat < 0x110000 := by rcases d.valid with hd | hd <;> omega
  -- What the higher of two neighbouring digits to the base 64 leaves is the lower one.
  have hdiv (n : Nat) : n / 64 / 64 = n / 4096 ∧ n / 4096 / 64 = n / 262144 :=
    ⟨Nat.div_div_eq_div_mul n 64 64, Nat.div_div_eq_div_mul n 4096 64⟩
  obtain ⟨hc₁, hc₂⟩ := hdiv c.val.toNat
  obtain ⟨hd₁, hd₂⟩ := hdiv d.val.toNat
  simp only [String.utf8EncodeChar]
  split_ifs <;> simp (disch := omega) only [List.cons_append, List.cons_lt_cons_iff,
    UInt8.lt_iff_toNat_lt, ← UInt8.toNat_inj, UInt8.toNat_ofNat', Nat.mod_eq_of_lt] <;> omega

/-- The order of texts is the order of their bytes. -/
theorem utf8_lt {s t : List Char} (h : s < t) : utf8 s < utf8 t := by
  induction h with
  | @nil c t =>
    obtain ⟨b, bs, hb⟩ := List.exists_cons_of_ne_nil (String.utf8EncodeChar_ne_nil (c := c))
    rw [utf8_cons, hb]
    exact .nil
  | rel h =>
    rw [utf8_cons, utf8_cons]
    exact encode_lt h _ _
  | cons h ih =>
    rw [utf8_cons, utf8_cons]
    exact List.Lex.append_left _ ih _

end Text

/-- The value of the last binding of a name, where bindings are listed as they were made. -/
def lastBinding (name : Name) (made : List (Name × Value)) : Option Value :=
  (made.reverse.find? (·.1 = name)).map Prod.snd

theorem lastBinding_concat (name : Name) (made : List (Name × Value)) (b : Name × Value) :
    lastBinding name (made ++ [b]) = if name = b.1 then some b.2 else lastBinding name made := by
  by_cases h : name = b.1
  · simp [lastBinding, h]
  · simp [lastBinding, h, Ne.symm h]

theorem Frame.get?_ofList (made : List (Name × Value)) (name : Name) :
    (ofList made).get? name = lastBinding name made := by
  induction made using List.reverseRecOn with
  | nil => rfl
  | append_singleton made b ih =>
    have hs : ofList (made ++ [b]) = (ofList made).bind b.1 b.2 := List.foldl_concat ..
    rw [hs, get?_bind, ih, lastBinding_concat]

namespace Env

/-- What a host can do to a chain of frames. A frame that it enters comes with bindings made before. -/
inductive Act where
  | bind (name : Name) (value : Value)
  | bindChecked (key value : Value)
  | enclose (made : List (Name × Value))

/-- A binding that is refused changes nothing. -/
def perform (env : Env) : Act → Env
  | .bind name value => env.bind name value
  | .bindChecked key value =>
    match env.bindChecked key value with
    | .ok next => next
    | .error _ => env
  | .enclose made => env.enclose (.ofList made)

def performAll (env : Env) (acts : List Act) : Env := acts.foldl perform env

/-- The chain that starts with one empty frame. -/
def built (context : Context) (acts : List Act) : Env := (empty context).performAll acts

/-- The bindings that were made in each frame, each list as they were made, innermost frame first. -/
abbrev Ledger := List (List (Name × Value))

namespace Ledger

def enter (ledger : Ledger) (name : Name) (value : Value) : Ledger :=
  ledger.modifyHead (· ++ [(name, value)])

def record (ledger : Ledger) : Act → Ledger
  | .bind name value | .bindChecked (.sym name) value => ledger.enter name value
  | .bindChecked _ _ => ledger
  | .enclose made => made :: ledger

/-- The ledger of a chain that is built from nothing. -/
def ofActs (acts : List Act) : Ledger := acts.foldl record [[]]

/-- The last binding of a name in the innermost frame that has one. -/
def binding (ledger : Ledger) (name : Name) : Option Value := ledger.findSome? (lastBinding name)

end Ledger

/-- The frames hold what the ledger says. -/
def KeptBy (env : Env) (ledger : Ledger) : Prop := env.frames = ledger.map Frame.ofList

section

variable {env : Env} {ledger : Ledger}

theorem KeptBy.bind (h : env.KeptBy ledger) (name : Name) (value : Value) :
    (env.bind name value).KeptBy (ledger.enter name value) := by
  cases ledger with
  | nil => cases h
  | cons made outer =>
    obtain ⟨hf, ho⟩ := List.cons.inj h
    have hs : Frame.ofList (made ++ [(name, value)]) = (Frame.ofList made).bind name value :=
      List.foldl_concat ..
    refine congrArg₂ List.cons ?_ ho
    rw [hs, ← hf]
    rfl

theorem KeptBy.perform (h : env.KeptBy ledger) (act : Act) :
    (env.perform act).KeptBy (ledger.record act) := by
  cases act with
  | bind name value => exact h.bind name value
  | bindChecked key value =>
    cases key with
    | sym name => exact h.bind name value
    | _ => exact h
  | enclose made => exact congrArg (List.cons _) h

theorem KeptBy.performAll (h : env.KeptBy ledger) (acts : List Act) :
    (env.performAll acts).KeptBy (acts.foldl Ledger.record ledger) := by
  induction acts generalizing env ledger with
  | nil => exact h
  | cons act rest ih => exact ih (h.perform act)

theorem KeptBy.get? (h : env.KeptBy ledger) (name : Name) :
    env.get? name = ledger.binding name := by
  rw [Env.get?, h, List.findSome?_map]
  exact congrArg (List.findSome? · ledger) (funext fun made => Frame.get?_ofList made name)

theorem keptBy_ofActs (context : Context) (acts : List Act) :
    (built context acts).KeptBy (.ofActs acts) := by
  have h : (Env.empty context).KeptBy [[]] := rfl
  exact h.performAll acts

end

/-- A name is listed unless looking it up misses. The fault of a miss can also be bound as a value, and
then the name is listed. -/
theorem mem_symbols_iff_lookup {env : Env} {name : Name} : name ∈ env.symbols ↔
    env.lookup name ≠ .error ⟨.unboundSymbol, name⟩ ∨
      env.get? name = some (.error ⟨.unboundSymbol, name⟩) := by
  rw [mem_symbols, lookup]
  cases env.get? name with
  | none => simp
  | some value =>
    by_cases hv : value = .error ⟨.unboundSymbol, name⟩
    · simp [hv]
    · simp [hv]

theorem bytes_ascending (env : Env) :
    (env.symbols.map fun name => Text.utf8 name.toList).Pairwise (· < ·) := by
  rw [List.pairwise_map]
  refine env.pairwise_symbols.imp ?_
  intro a b hab
  exact Text.utf8_lt (String.lt_iff_toList_lt.mp hab)

theorem bindChecked_refuses (env : Env) {key : Value} (h : ∀ name, key ≠ .sym name) (value : Value) :
    ∃ message, env.bindChecked key value = .error ⟨.typeMismatch, message⟩ := by
  cases key with
  | sym name => exact absurd rfl (h name)
  | _ => exact ⟨_, rfl⟩

theorem perform_refused (env : Env) {key : Value} (h : ∀ name, key ≠ .sym name) (value : Value) :
    env.perform (.bindChecked key value) = env := by
  obtain ⟨message, hm⟩ := env.bindChecked_refuses h value
  rw [perform, hm]

/-- Whatever was done to a chain of frames, its names are listed in the order of their bytes. A name is
listed exactly if it has a binding, which is if looking it up is not a miss; its value is the last one
that was bound to it in the innermost frame with a binding of it. A binding to a key that is no symbol
is refused, and neither the list nor any value changes. -/
theorem symbols_list_the_visible (context : Context) (acts : List Act) :
    ((built context acts).symbols.map fun name => Text.utf8 name.toList).Pairwise (· < ·) ∧
    (∀ name, (name ∈ (built context acts).symbols ↔ ((built context acts).get? name).isSome) ∧
      (name ∈ (built context acts).symbols ↔
        (built context acts).lookup name ≠ .error ⟨.unboundSymbol, name⟩ ∨
          (built context acts).get? name = some (.error ⟨.unboundSymbol, name⟩)) ∧
      (built context acts).get? name = (Ledger.ofActs acts).binding name) ∧
    ∀ key value, (∀ name, key ≠ .sym name) →
      (∃ message, (built context acts).bindChecked key value = .error ⟨.typeMismatch, message⟩) ∧
      (built context (acts ++ [.bindChecked key value])).symbols = (built context acts).symbols ∧
      ∀ name, (built context (acts ++ [.bindChecked key value])).get? name =
        (built context acts).get? name := by
  refine ⟨bytes_ascending _, ?_, ?_⟩
  · intro name
    exact ⟨mem_symbols, mem_symbols_iff_lookup, (keptBy_ofActs context acts).get? name⟩
  · intro key value hkey
    have hsame : built context (acts ++ [.bindChecked key value]) = built context acts := by
      rw [built, performAll, List.foldl_concat]
      exact perform_refused _ hkey value
    rw [hsame]
    exact ⟨bindChecked_refuses _ hkey value, rfl, fun _ => rfl⟩

/-- A name that is bound three times in two frames, beside one beyond ASCII, and a key that is refused. -/
theorem symbols_list_the_visible_shadowed : ∃ acts : List Act,
    acts = [.bind "b" (.int 1), .bind "a" (.int 2), .bindChecked (.sym "b") (.int 3),
      .enclose [("é", .int 4), ("a", .int 5), ("a", .nothing)]] ∧
    (built .default acts).symbols = ["a", "b", "é"] ∧
    ((built .default acts).symbols.map fun name => Text.utf8 name.toList).Pairwise (· < ·) ∧
    (built .default acts).get? "a" = some .nothing ∧
    (built .default acts).get? "b" = some (.int 3) ∧
    (built .default (acts ++ [.bindChecked (.int 7) (.int 8)])).symbols = ["a", "b", "é"] := by
  refine ⟨_, rfl, ?_⟩
  obtain ⟨hsorted, hnames, hrefused⟩ := symbols_list_the_visible .default
    [.bind "b" (.int 1), .bind "a" (.int 2), .bindChecked (.sym "b") (.int 3),
      .enclose [("é", .int 4), ("a", .int 5), ("a", .nothing)]]
  have hlist : (built .default [.bind "b" (.int 1), .bind "a" (.int 2),
      .bindChecked (.sym "b") (.int 3),
      .enclose [("é", .int 4), ("a", .int 5), ("a", .nothing)]]).symbols = ["a", "b", "é"] := by
    decide
  refine ⟨hlist, hsorted, (hnames "a").2.2, (hnames "b").2.2, ?_⟩
  rw [(hrefused (.int 7) (.int 8) (by simp)).2.1, hlist]

end Env

end Lisplet
