import Mathlib.Data.List.Forall2
import Mathlib.Data.String.Basic
import Lisplet.Exchange
import Lisplet.Proofs.JsonText
import Lisplet.Proofs.Rounding

/-! What decoding makes of the texts of reports and faults. Known fields may come in any order and
among unknown ones; none may come twice, and of the fields of a diagnostic only the suggestion may
be missing. A diagnostic keeps the values of unknown fields while it is decoded, so it is lost with
a value that cannot be kept; reports and faults skip such values. -/

namespace Lisplet

theorem Rounding.Holds.isFinite {u : Float.Model.UnpackedFloat} {v : Int} (h : Holds u v) :
    u.isFinite = true := by
  cases h <;> rfl

theorem Decimal.toFloat_natural {n : Nat} (h : 0 < n) (hn : n < 0x100000000) :
    Decimal.toFloat ⟨n, 0⟩ = Float.ofNat n := by
  have hd : digitCount n ≤ 10 :=
    (Nat.length_toDigits_le_iff (by decide) (by decide)).mpr (by omega)
  simp only [toFloat]
  rw [if_neg (by omega), if_neg (by omega)]
  rfl

namespace Json

theorem takeDigits_eq {ds : List Char} {n : Nat}
    (h : Nat.ofDigitChars 10 ds n < 0x10000000000000000) :
    takeDigits n ds = (Nat.ofDigitChars 10 ds n, ds.length) := by
  induction ds generalizing n with
  | nil => rfl
  | cons c rest ih =>
    have hc : Nat.ofDigitChars 10 (c :: rest) n =
        Nat.ofDigitChars 10 rest (Nat.ofDigitChars 10 [c] n) := Nat.ofDigitChars_cons
    rw [hc] at h
    have hle : Nat.ofDigitChars 10 [c] n ≤ Nat.ofDigitChars 10 rest (Nat.ofDigitChars 10 [c] n) := by
      rw [Nat.ofDigitChars_eq_ofDigitChars_zero (l := rest)]
      exact Nat.le_add_right_of_le (Nat.le_mul_of_pos_left _ (Nat.pow_pos (by decide)))
    rw [takeDigits, hc]
    simp only [ih h, if_pos (Nat.lt_of_le_of_lt hle h), List.length_cons]

theorem narrowed_toDigits {n : Nat} (h : n < 0x10000000000000000) :
    narrowed (.ofFront (Nat.toDigits 10 n)) = ⟨n, 0⟩ := by
  have hf : Numeral.ofFront (Nat.toDigits 10 n) = ⟨[], Nat.toDigits 10 n, [], []⟩ :=
    Numeral.ofFront_integer (Or.inl rfl) (digitsOf n).isDigit
  have hv : Nat.ofDigitChars 10 (Nat.toDigits 10 n) 0 = n := Nat.ofDigitChars_ten_toDigits
  rw [hf]
  simp only [narrowed, takeDigits_eq (hv.symm ▸ h), hv, List.drop_nil, takeDigits, Nat.sub_self]
  rfl

theorem isFinite_toDigits {n : Nat} (h : n < 0x100000000) : isFinite (Nat.toDigits 10 n) = true := by
  rw [isFinite, narrowed_toDigits (by omega)]
  rcases Nat.eq_zero_or_pos n with rfl | hn
  · rfl
  · -- The power of ten is one, and a product with one is not rounded again.
    have hu := Rounding.holds_ofNat (show n ≤ 2 ^ 63 by omega)
    have hone : (Float.ofNat 1).toModel.unpack = Rounding.one := rfl
    have hp : (Float.ofNat n * Float.ofNat 1).isFinite = true := by
      change (Float.Model.pack (Float.Model.UnpackedFloat.mul .binary64 (Float.ofNat n).toModel.unpack
        (Float.ofNat 1).toModel.unpack)).unpack.isFinite = true
      rw [hone, hu.mul_one.unpack_pack]
      exact hu.mul_one.isFinite
    have h1 : Decimal.toFloat ⟨1, 0⟩ = Float.ofNat 1 := Decimal.toFloat_natural (by decide) (by decide)
    simp only [Decimal.toFloat_natural hn h, h1, hp, Bool.or_true]

/-- A value inside a value, or the value itself. -/
inductive Occurs (part : Json) : Json → Prop where
  | here : Occurs part part
  | item {items : List Json} {item : Json} :
      item ∈ items → Occurs part item → Occurs part (.array items)
  | field {fields : List (List Char × Json)} {field : List Char × Json} :
      field ∈ fields → Occurs part field.2 → Occurs part (.object fields)

mutual

/-- How deep arrays and objects nest. -/
def depth : Json → Nat
  | .array items => itemsDepth items + 1
  | .object fields => fieldsDepth fields + 1
  | .null | .bool _ | .number _ | .string _ => 0

def itemsDepth : List Json → Nat
  | [] => 0
  | item :: items => max item.depth (itemsDepth items)

def fieldsDepth : List (List Char × Json) → Nat
  | [] => 0
  | (_, value) :: fields => max value.depth (fieldsDepth fields)

end

/-- What stands in the value itself, and not further inside, can be kept: a text or a key decodes, and
a number is finite. -/
def Storable : Json → Prop
  | .number literal => isFinite literal
  | .string body => (decode body).isSome
  | .object fields => ∀ field ∈ fields, (decode field.1).isSome
  | .null | .bool _ | .array _ => True

/-- Nothing nests too deep, and everything inside can be kept. -/
def Keepable (levels : Nat) (value : Json) : Prop :=
  value.depth ≤ levels ∧ ∀ part, Occurs part value → part.Storable

theorem keepable_leaf (levels : Nat) {value : Json} (hd : value.depth = 0)
    (ho : ∀ part, Occurs part value → part = value) : Keepable levels value ↔ value.Storable := by
  constructor
  · intro h
    exact h.2 value .here
  · intro h
    refine ⟨by omega, fun part hp => ?_⟩
    rw [ho part hp]
    exact h

theorem keepable_array {levels : Nat} {items : List Json} :
    Keepable levels (.array items) ↔ itemsDepth items < levels ∧
      ∀ item ∈ items, ∀ part, Occurs part item → part.Storable := by
  constructor
  · rintro ⟨hd, hs⟩
    exact ⟨hd, fun item hm part hp => hs part (.item hm hp)⟩
  · rintro ⟨hd, hs⟩
    refine ⟨hd, fun part hp => ?_⟩
    cases hp with
    | here => exact trivial
    | item hm hp => exact hs _ hm part hp

theorem keepable_object {levels : Nat} {fields : List (List Char × Json)} :
    Keepable levels (.object fields) ↔ fieldsDepth fields < levels ∧
      ∀ field ∈ fields, (decode field.1).isSome ∧ ∀ part, Occurs part field.2 → part.Storable := by
  constructor
  · rintro ⟨hd, hs⟩
    exact ⟨hd, fun field hm => ⟨hs _ .here field hm, fun part hp => hs part (.field hm hp)⟩⟩
  · rintro ⟨hd, hs⟩
    refine ⟨hd, fun part hp => ?_⟩
    cases hp with
    | here => exact fun field hm => (hs field hm).1
    | field hm hp => exact (hs _ hm).2 part hp

mutual

/-- What can be kept, told by depth, texts and numbers. -/
theorem keepable_iff (levels : Nat) : ∀ value : Json, keepable levels value ↔ Keepable levels value
  | .null | .bool _ | .number _ | .string _ => by
    rw [keepable_leaf levels rfl (by intro part hp; cases hp; rfl)]
    simp [keepable, Storable]
  | .array items => by
    rw [keepable, keepable_array, Bool.and_eq_true, itemsKeepable_iff (levels - 1) items,
      decide_eq_true_eq, ← and_assoc]
    exact and_congr_left' (by omega)
  | .object fields => by
    rw [keepable, keepable_object, Bool.and_eq_true, fieldsKeepable_iff (levels - 1) fields,
      decide_eq_true_eq, ← and_assoc]
    exact and_congr_left' (by omega)

theorem itemsKeepable_iff (levels : Nat) : ∀ items : List Json, itemsKeepable levels items ↔
    itemsDepth items ≤ levels ∧ ∀ item ∈ items, ∀ part, Occurs part item → part.Storable
  | [] => by simp [itemsKeepable, itemsDepth]
  | item :: items => by
    rw [itemsKeepable, itemsDepth, Bool.and_eq_true, keepable_iff levels item,
      itemsKeepable_iff levels items, Keepable, List.forall_mem_cons, Nat.max_le]
    exact and_and_and_comm

theorem fieldsKeepable_iff (levels : Nat) : ∀ fields : List (List Char × Json),
    fieldsKeepable levels fields ↔ fieldsDepth fields ≤ levels ∧
      ∀ field ∈ fields, (decode field.1).isSome ∧ ∀ part, Occurs part field.2 → part.Storable
  | [] => by simp [fieldsKeepable, fieldsDepth]
  | (key, value) :: fields => by
    rw [fieldsKeepable, fieldsDepth, Bool.and_eq_true, Bool.and_eq_true, keepable_iff levels value,
      fieldsKeepable_iff levels fields, Keepable, List.forall_mem_cons, Nat.max_le]
    exact (and_congr_left' and_left_comm).trans and_and_and_comm

end

theorem decodeKeys_encode (fields : List (String × Json)) :
    decodeKeys (fields.map fun field => (encode field.1, field.2)) = some fields := by
  induction fields with
  | nil => rfl
  | cons field rest ih =>
    rw [List.map_cons, decodeKeys, decode_encode, ih]
    rfl

theorem string?_ofString (s : String) : (ofString s).string? = some s := decode_encode s

theorem valuesOf_append (key : String) (a b : List (String × Json)) :
    valuesOf key (a ++ b) = valuesOf key a ++ valuesOf key b :=
  List.filterMap_append

theorem valuesOf_eq_nil {key : String} {fields : List (String × Json)}
    (h : ∀ field ∈ fields, field.1 ≠ key) : valuesOf key fields = [] := by
  rw [valuesOf, List.filterMap_eq_nil_iff]
  intro field hm
  exact if_neg (h field hm)

theorem valuesOf_of_mem {known : List (String × Json)} (hn : (known.map Prod.fst).Nodup)
    {key : String} {value : Json} (h : (key, value) ∈ known) : valuesOf key known = [value] := by
  induction known with
  | nil => cases h
  | cons other rest ih =>
    rw [List.map_cons, List.nodup_cons] at hn
    rcases List.mem_cons.mp h with rfl | h
    · have hr : valuesOf key rest = [] :=
        valuesOf_eq_nil fun f hf he => hn.1 (List.mem_map.mpr ⟨f, hf, he⟩)
      rw [valuesOf, List.filterMap_cons, if_pos rfl, ← valuesOf, hr]
    · have hne : other.1 ≠ key := fun he => hn.1 (he ▸ List.mem_map_of_mem h)
      rw [valuesOf, List.filterMap_cons, if_neg hne, ← valuesOf, ih hn.2 h]

section

variable {names : List String} {fields known extra : List (String × Json)}
  (hp : fields.Perm (known ++ extra)) (hx : ∀ field ∈ extra, field.1 ∉ names) {key : String}
  (hk : key ∈ names)

include hp hx hk

/-- A key sees the known fields only, in whatever order all of them come. -/
theorem valuesOf_perm : (valuesOf key fields).Perm (valuesOf key known) := by
  have h := hp.filterMap fun field => if field.1 = key then some field.2 else none
  have hn : valuesOf key extra = [] := valuesOf_eq_nil fun f hf he => hx f hf (he ▸ hk)
  change (valuesOf key fields).Perm (valuesOf key (known ++ extra)) at h
  rwa [valuesOf_append, hn, List.append_nil] at h

theorem required_of_mem (hn : (known.map Prod.fst).Nodup) {value : Json}
    (h : (key, value) ∈ known) : required key fields = some value := by
  have hv := valuesOf_perm hp hx hk
  rw [valuesOf_of_mem hn h, List.perm_singleton] at hv
  rw [required, hv]

theorem optional_of_mem (hn : (known.map Prod.fst).Nodup) {value : Json}
    (h : (key, value) ∈ known) : optional key fields = some (some value) := by
  have hv := valuesOf_perm hp hx hk
  rw [valuesOf_of_mem hn h, List.perm_singleton] at hv
  rw [optional, hv]

theorem optional_of_not_mem (h : ∀ f ∈ known, f.1 ≠ key) : optional key fields = some none := by
  have hv := valuesOf_perm hp hx hk
  rw [valuesOf_eq_nil h, List.perm_nil] at hv
  rw [optional, hv]

end

theorem required_eq_some {key : String} {fields : List (String × Json)} {value : Json}
    (h : required key fields = some value) : valuesOf key fields = [value] := by
  unfold required at h
  split at h
  · next he => rw [he, Option.some.inj h]
  · cases h

theorem length_of_optional {key : String} {fields : List (String × Json)} {value : Option Json}
    (h : optional key fields = some value) : (valuesOf key fields).length ≤ 1 := by
  unfold optional at h
  split at h
  · next he => simp [he]
  · next he => simp [he]
  · cases h

/-- The object has the known fields in some order, and others under names of their own. -/
def Includes (names : List String) (allowed : Json → Prop) (known : List (String × Json))
    (fields : List (List Char × Json)) : Prop :=
  ∃ decoded extra, decodeKeys fields = some decoded ∧ decoded.Perm (known ++ extra) ∧
    ∀ field ∈ extra, field.1 ∉ names ∧ allowed field.2

theorem includes_of_perm {names : List String} {allowed : Json → Prop}
    {known extra fields : List (String × Json)} (hp : fields.Perm (known ++ extra))
    (hx : ∀ field ∈ extra, field.1 ∉ names ∧ allowed field.2) :
    Includes names allowed known (fields.map fun field => (encode field.1, field.2)) :=
  ⟨fields, extra, decodeKeys_encode fields, hp, hx⟩

theorem includes_self (names : List String) (allowed : Json → Prop) (known : List (String × Json)) :
    Includes names allowed known (known.map fun field => (encode field.1, field.2)) :=
  includes_of_perm (by rw [List.append_nil]) (List.forall_mem_nil _)

theorem wellFormed_ofFields {fields : List (String × Json)} (h : ∀ field ∈ fields, field.2.WellFormed) :
    (ofFields fields).WellFormed := by
  refine .object ?_ ?_
  · rw [List.forall_mem_map]
    exact fun field _ => isBody_encode field.1
  · rw [List.forall_mem_map]
    exact h

theorem wellFormed_ofString (s : String) : (ofString s).WellFormed := .string (isBody_encode s)

theorem wellFormed_ofNat (n : Nat) : (ofNat n).WellFormed := .number (isLiteral_toDigits n)

/-- A decoder sees the tree whose text it is given. -/
theorem bind_parse_written {α : Type} (decoder : Json → Option α) {j : Json} (h : j.WellFormed) :
    (parse j.written).bind decoder = decoder j := by
  rw [h.parse_written, Option.bind_some]

/-- How often a key occurs, however it is spelled. -/
def occurrences (key : String) (fields : List (List Char × Json)) : Nat :=
  fields.countP fun field => decode field.1 == some key

/-- A field that is asked for comes twice, or one that must be there does not come. -/
def Spoiled (mandatory voluntary : List String) (fields : List (List Char × Json)) : Prop :=
  (∃ key ∈ mandatory ++ voluntary, 1 < occurrences key fields) ∨
    ∃ key ∈ mandatory, occurrences key fields = 0

/-- The values of a key can be told from the keys as spelled. -/
theorem valuesOf_decoded {fields : List (List Char × Json)} {decoded : List (String × Json)}
    (h : decodeKeys fields = some decoded) (key : String) :
    valuesOf key decoded =
      fields.filterMap fun field => if decode field.1 = some key then some field.2 else none := by
  induction fields generalizing decoded with
  | nil =>
    cases h
    rfl
  | cons field rest ih =>
    obtain ⟨spelled, value⟩ := field
    simp only [decodeKeys, Option.bind_eq_bind, Option.bind_eq_some_iff] at h
    obtain ⟨name, hn, more, hm, hd⟩ := h
    cases hd
    rw [List.filterMap_cons, ← ih hm, valuesOf, List.filterMap_cons, hn]
    simp only [Option.some.injEq, valuesOf]

theorem length_valuesOf {fields : List (List Char × Json)} {decoded : List (String × Json)}
    (h : decodeKeys fields = some decoded) (key : String) :
    (valuesOf key decoded).length = occurrences key fields := by
  rw [valuesOf_decoded h, List.length_filterMap_eq_countP, occurrences]
  refine List.countP_congr fun field _ => ?_
  by_cases hk : decode field.1 = some key <;> simp [hk]

/-- Where every key is found as it must be, nothing is repeated and nothing missing. -/
theorem not_spoiled {mandatory voluntary : List String} {fields : List (List Char × Json)}
    {decoded : List (String × Json)} (hd : decodeKeys fields = some decoded)
    (hm : ∀ key ∈ mandatory, (required key decoded).isSome)
    (hv : ∀ key ∈ voluntary, (optional key decoded).isSome) : ¬ Spoiled mandatory voluntary fields := by
  have one (key : String) (hk : key ∈ mandatory) : occurrences key fields = 1 := by
    obtain ⟨value, hr⟩ := Option.isSome_iff_exists.mp (hm key hk)
    rw [← length_valuesOf hd, required_eq_some hr, List.length_singleton]
  rintro (⟨key, hk, hc⟩ | ⟨key, hk, hc⟩)
  · rcases List.mem_append.mp hk with hk | hk
    · rw [one key hk] at hc
      omega
    · obtain ⟨value, ho⟩ := Option.isSome_iff_exists.mp (hv key hk)
      rw [← length_valuesOf hd] at hc
      have hl := length_of_optional ho
      omega
  · rw [one key hk] at hc
    omega

end Json

open Json

namespace Diagnostic

def mandatory : List String :=
  ["file", "code", "message", "line", "column", "end_line", "end_column", "source_line"]

def voluntary : List String := ["suggestion"]

/-- The numbers fit in the words that hold them. -/
structure InRange (d : Diagnostic) : Prop where
  code : d.code < codeBound
  firstLine : d.span.first.line < placeBound
  firstColumn : d.span.first.column < placeBound
  lastLine : d.span.last.line < placeBound
  lastColumn : d.span.last.column < placeBound

/-- The fields of a diagnostic. A suggestion that is absent may be written as `null`. -/
inductive Spelled (d : Diagnostic) : List (String × Json) → Prop where
  | plain : Spelled d d.toFields
  | null (h : d.suggestion = none) : Spelled d (d.toFields ++ [("suggestion", .null)])

/-- The tree is an object with the fields of the diagnostic in any order, among unknown ones. -/
def Presents (allowed : Json → Prop) (d : Diagnostic) (j : Json) : Prop :=
  ∃ known fields, d.Spelled known ∧ Includes (mandatory ++ voluntary) allowed known fields ∧
    j = .object fields

theorem place?_some {lineKey columnKey : String} {fields : List (String × Json)} {p : Position}
    (h : place? lineKey columnKey fields = some p) :
    (required lineKey fields).isSome ∧ (required columnKey fields).isSome := by
  simp only [place?, Option.bind_eq_bind, Option.bind_eq_some_iff] at h
  obtain ⟨_, line, _, _, _, column, _⟩ := h
  exact ⟨by rw [line]; rfl, by rw [column]; rfl⟩

theorem place?_eq {lineKey columnKey : String} {fields : List (String × Json)} {line column : Nat}
    (hl : required lineKey fields = some (.ofNat line)) (hline : line < placeBound)
    (hc : required columnKey fields = some (.ofNat column)) (hcolumn : column < placeBound) :
    place? lineKey columnKey fields = some ⟨line, column⟩ := by
  simp only [place?, hl, hc, Option.bind_eq_bind, Option.bind_some, whole?_ofNat hline,
    whole?_ofNat hcolumn]

theorem suggestion?_some {fields : List (String × Json)} {suggestion : Option String}
    (h : suggestion? fields = some suggestion) : (Json.optional "suggestion" fields).isSome := by
  obtain ⟨_, ho, -⟩ := Option.bind_eq_some_iff.mp h
  rw [ho]
  rfl

/-- What a diagnostic must have been decoded from. -/
theorem ofJson_some {level : Nat} {fields : List (List Char × Json)} {d : Diagnostic}
    (h : ofJson level (.object fields) = some d) :
    ∃ decoded, decodeKeys fields = some decoded ∧
      (∀ key ∈ mandatory, (required key decoded).isSome) ∧
      ∀ key ∈ voluntary, (Json.optional key decoded).isSome := by
  obtain ⟨decoded, hd, h⟩ := Option.bind_eq_some_iff.mp h
  obtain ⟨_, file, h⟩ := Option.bind_eq_some_iff.mp h
  obtain ⟨_, -, h⟩ := Option.bind_eq_some_iff.mp h
  obtain ⟨_, code, h⟩ := Option.bind_eq_some_iff.mp h
  obtain ⟨_, -, h⟩ := Option.bind_eq_some_iff.mp h
  obtain ⟨_, message, h⟩ := Option.bind_eq_some_iff.mp h
  obtain ⟨_, -, h⟩ := Option.bind_eq_some_iff.mp h
  obtain ⟨_, hf, h⟩ := Option.bind_eq_some_iff.mp h
  obtain ⟨_, hl, h⟩ := Option.bind_eq_some_iff.mp h
  obtain ⟨_, sourceLine, h⟩ := Option.bind_eq_some_iff.mp h
  obtain ⟨_, -, h⟩ := Option.bind_eq_some_iff.mp h
  obtain ⟨_, hs, -⟩ := Option.bind_eq_some_iff.mp h
  refine ⟨decoded, hd, ?_, ?_⟩
  · simp [mandatory, file, code, message, place?_some hf, place?_some hl, sourceLine]
  · simp [voluntary, suggestion?_some hs]

theorem ofJson_spoiled (level : Nat) {fields : List (List Char × Json)}
    (h : Spoiled mandatory voluntary fields) : ofJson level (.object fields) = none := by
  by_contra hs
  obtain ⟨d, hd⟩ := Option.ne_none_iff_exists'.mp hs
  obtain ⟨decoded, hk, hm, hv⟩ := ofJson_some hd
  exact not_spoiled hk hm hv h

theorem keepable_ofNat {n : Nat} (h : n < placeBound) (levels : Nat) :
    keepable levels (.ofNat n) = true :=
  isFinite_toDigits h

theorem otherFieldsKeepable_spelled {d : Diagnostic} (h : d.InRange) {known : List (String × Json)}
    (hs : d.Spelled known) (level : Nat) : otherFieldsKeepable level known = true := by
  have hp : otherFieldsKeepable level d.toFields = true := by
    unfold toFields
    cases d.suggestion <;>
      simp [otherFieldsKeepable, textKeys, keepable_ofNat h.firstLine, keepable_ofNat h.firstColumn,
        keepable_ofNat h.lastLine, keepable_ofNat h.lastColumn]
  cases hs with
  | plain => exact hp
  | null =>
    unfold otherFieldsKeepable at hp ⊢
    rw [List.all_append, hp]
    rfl

theorem nodup_spelled {d : Diagnostic} {known : List (String × Json)} (hs : d.Spelled known) :
    (known.map Prod.fst).Nodup := by
  cases hs with
  | plain =>
    unfold toFields
    cases d.suggestion <;> simp
  | null hn =>
    unfold toFields
    rw [hn]
    simp

section

variable {d : Diagnostic} {known fields extra : List (String × Json)} (hs : d.Spelled known)
  (hp : fields.Perm (known ++ extra)) (hx : ∀ f ∈ extra, f.1 ∉ mandatory ++ voluntary)

include hs hp hx

theorem suggestion?_spelled : suggestion? fields = some d.suggestion := by
  have hk : "suggestion" ∈ mandatory ++ voluntary := by decide
  cases hd : d.suggestion with
  | none =>
    cases hs with
    | plain =>
      have ho : Json.optional "suggestion" fields = some none :=
        optional_of_not_mem hp hx hk (by simp [toFields, hd])
      rw [suggestion?, ho]
      rfl
    | null =>
      have ho : Json.optional "suggestion" fields = some (some .null) :=
        optional_of_mem hp hx hk (nodup_spelled (.null hd)) (by simp)
      rw [suggestion?, ho]
      rfl
  | some s =>
    cases hs with
    | plain =>
      have ho : Json.optional "suggestion" fields = some (some (ofString s)) :=
        optional_of_mem hp hx hk (nodup_spelled .plain) (by simp [toFields, hd])
      rw [suggestion?, ho]
      exact congrArg (Option.map some) (string?_ofString s)
    | null hn =>
      rw [hn] at hd
      cases hd

theorem required_spelled : ∀ field ∈ d.toFields, required field.1 fields = some field.2 := by
  have hknown : d.toFields ⊆ known := by
    cases hs with
    | plain => exact List.Subset.refl _
    | null => exact List.subset_append_left _ _
  have hkey : ∀ field ∈ d.toFields, field.1 ∈ mandatory ++ voluntary := by
    unfold toFields
    cases d.suggestion <;> simp [mandatory, voluntary]
  intro field hf
  exact required_of_mem hp hx (hkey field hf) (nodup_spelled hs) (hknown hf)

end

theorem otherFieldsKeepable_eq {known fields extra : List (String × Json)} {level : Nat}
    (hk : otherFieldsKeepable level known = true) (hp : fields.Perm (known ++ extra))
    (hx : ∀ f ∈ extra, f.1 ∉ mandatory ++ voluntary) :
    otherFieldsKeepable level fields = extra.all fun f => keepable (nesting - level) f.2 := by
  unfold otherFieldsKeepable at hk ⊢
  rw [hp.all_eq, List.all_append, hk, Bool.true_and]
  have htext : textKeys ⊆ mandatory ++ voluntary := by decide
  rw [Bool.eq_iff_iff, List.all_eq_true, List.all_eq_true]
  refine forall₂_congr fun f hf => ?_
  have hc : textKeys.contains f.1 = false := by
    rw [List.contains_eq_mem, decide_eq_false_iff_not]
    exact fun h => hx f hf (htext h)
  rw [hc, Bool.false_or]

/-- What decoding makes of an object with the fields of a diagnostic. Unknown fields can only keep
it from giving the diagnostic. -/
theorem ofJson_object {d : Diagnostic} (h : d.InRange) {known decoded extra : List (String × Json)}
    {fields : List (List Char × Json)} (hs : d.Spelled known) (hd : decodeKeys fields = some decoded)
    (hp : decoded.Perm (known ++ extra)) (hx : ∀ f ∈ extra, f.1 ∉ mandatory ++ voluntary)
    (level : Nat) : ofJson level (.object fields) =
      if extra.all (fun f => keepable (nesting - level) f.2) then some d else none := by
  have hr := required_spelled hs hp hx
  have suggestion := suggestion?_spelled hs hp hx
  have hk := otherFieldsKeepable_eq (otherFieldsKeepable_spelled h hs level) hp hx
  simp only [toFields, List.forall_mem_append, List.forall_mem_cons] at hr
  obtain ⟨⟨file, code, message, line, column, endLine, endColumn, sourceLine, -⟩, -⟩ := hr
  have first := place?_eq line h.firstLine column h.firstColumn
  have last := place?_eq endLine h.lastLine endColumn h.lastColumn
  simp only [ofJson, hd, file, code, message, first, last, sourceLine, suggestion, hk,
    Option.bind_eq_bind, Option.bind_some, string?_ofString, whole?_ofNat h.code]

section

variable {level : Nat} {d : Diagnostic} {j : Json}

theorem ofJson_presents (h : d.InRange)
    (hj : d.Presents (Keepable (nesting - level)) j) : ofJson level j = some d := by
  obtain ⟨known, fields, hs, ⟨decoded, extra, hd, hp, hx⟩, rfl⟩ := hj
  rw [ofJson_object h hs hd hp fun f hf => (hx f hf).1]
  exact if_pos (List.all_eq_true.mpr fun f hf => (keepable_iff _ f.2).mpr (hx f hf).2)

/-- If decoding succeeds at all, then all unknown values can be kept. -/
theorem presents_of_ofJson {allowed : Json → Prop} (h : d.InRange) (hj : d.Presents allowed j)
    (hs : ofJson level j ≠ none) : d.Presents (Keepable (nesting - level)) j := by
  obtain ⟨known, fields, hk, ⟨decoded, extra, hd, hp, hx⟩, rfl⟩ := hj
  refine ⟨known, fields, hk, ⟨decoded, extra, hd, hp, fun f hf => ⟨(hx f hf).1, ?_⟩⟩, rfl⟩
  rw [ofJson_object h hk hd hp fun f hf => (hx f hf).1] at hs
  by_contra hn
  exact hs (if_neg fun ha => hn ((keepable_iff _ f.2).mp (List.all_eq_true.mp ha f hf)))

end

theorem presents_toJson (allowed : Json → Prop) (d : Diagnostic) : d.Presents allowed d.toJson :=
  ⟨d.toFields, _, .plain, includes_self _ allowed d.toFields, rfl⟩

theorem wellFormed_toFields (d : Diagnostic) : ∀ field ∈ d.toFields, field.2.WellFormed := by
  unfold toFields
  cases d.suggestion <;> simp [wellFormed_ofString, wellFormed_ofNat]

end Diagnostic

namespace Report

def keys : List String := ["errors", "total_errors"]

structure InRange (r : Report) : Prop where
  errors : ∀ d ∈ r.errors, d.InRange
  total : r.total < totalBound

/-- The fields, with these items for the diagnostics. -/
def known (r : Report) (items : List Json) : List (String × Json) :=
  [("errors", .array items), ("total_errors", .ofNat r.total)]

/-- The tree is an object with the two fields of the report in any order, among unknown ones, and
each item presents the diagnostic in its place. -/
def Presents (allowed : Json → Prop) (r : Report) (j : Json) : Prop :=
  ∃ items fields, List.Forall₂ (Diagnostic.Presents allowed) r.errors items ∧
    Includes keys (fun _ => True) (r.known items) fields ∧ j = .object fields

/-- What the diagnostics of a report may have under unknown names. -/
def Keepable (value : Json) : Prop := value.Keepable (nesting - 3)

theorem mapM_presents {ds : List Diagnostic} {items : List Json} (h : ∀ d ∈ ds, d.InRange)
    (hp : List.Forall₂ (Diagnostic.Presents Keepable) ds items) :
    items.mapM (Diagnostic.ofJson 3) = some ds := by
  induction hp with
  | nil => rfl
  | cons hd _ ih =>
    rw [List.forall_mem_cons] at h
    rw [List.mapM_cons, Diagnostic.ofJson_presents h.1 hd, ih h.2]
    rfl

theorem mem_of_mapM {items : List Json} {ds : List Diagnostic}
    (h : items.mapM (Diagnostic.ofJson 3) = some ds) :
    ∀ item ∈ items, Diagnostic.ofJson 3 item ≠ none := by
  induction items generalizing ds with
  | nil => exact List.forall_mem_nil _
  | cons item rest ih =>
    rw [List.mapM_cons] at h
    obtain ⟨d, hd, h⟩ := Option.bind_eq_some_iff.mp h
    obtain ⟨more, hm, -⟩ := Option.bind_eq_some_iff.mp h
    rw [List.forall_mem_cons, hd]
    exact ⟨Option.some_ne_none d, ih hm⟩

theorem presents_items {allowed : Json → Prop} {ds : List Diagnostic} {items : List Json}
    (h : ∀ d ∈ ds, d.InRange) (hp : List.Forall₂ (Diagnostic.Presents allowed) ds items)
    (hs : ∀ item ∈ items, Diagnostic.ofJson 3 item ≠ none) :
    List.Forall₂ (Diagnostic.Presents Keepable) ds items := by
  induction hp with
  | nil => exact .nil
  | cons hd _ ih =>
    rw [List.forall_mem_cons] at h hs
    exact .cons (Diagnostic.presents_of_ofJson h.1 hd hs.1) (ih h.2 hs.2)

theorem ofJson_object {r : Report} (h : r.total < totalBound) {items : List Json}
    {fields : List (List Char × Json)}
    (hf : Includes keys (fun _ => True) (r.known items) fields) :
    ofJson (.object fields) =
      (items.mapM (Diagnostic.ofJson 3)).bind fun ds => some ⟨ds, r.total⟩ := by
  obtain ⟨decoded, extra, hd, hp, hx⟩ := hf
  have other : ∀ f ∈ extra, f.1 ∉ keys := fun f hf => (hx f hf).1
  have hn : ((r.known items).map Prod.fst).Nodup := by simp [known]
  have errors : required "errors" decoded = some (.array items) :=
    required_of_mem hp other (by decide) hn (by simp [known])
  have total : required "total_errors" decoded = some (.ofNat r.total) :=
    required_of_mem hp other (by decide) hn (by simp [known])
  simp only [ofJson, hd, errors, total, ofParts, Option.bind_eq_bind, Option.bind_some, whole?_ofNat h]

theorem ofJson_presents {r : Report} (h : r.InRange) {j : Json} (hj : r.Presents Keepable j) :
    ofJson j = some r := by
  obtain ⟨items, fields, hi, hf, rfl⟩ := hj
  rw [ofJson_object h.total hf, mapM_presents h.errors hi]
  rfl

theorem ofJson_unkept {r : Report} (h : r.InRange) {allowed : Json → Prop} {j : Json}
    (hj : r.Presents allowed j) (hn : ¬ r.Presents Keepable j) : ofJson j = none := by
  obtain ⟨items, fields, hi, hf, rfl⟩ := hj
  rw [ofJson_object h.total hf]
  -- Had every item been decoded, all their unknown values could be kept.
  cases hm : items.mapM (Diagnostic.ofJson 3) with
  | none => rfl
  | some ds => exact absurd ⟨items, fields, presents_items h.errors hi (mem_of_mapM hm), hf, rfl⟩ hn

/-- A field is repeated or missing, in the outer object or in an item that is one. -/
inductive Broken : Json → Prop where
  | outer {fields : List (List Char × Json)} : Spoiled keys [] fields → Broken (.object fields)
  | inner {fields inside : List (List Char × Json)} {key : List Char} {items : List Json} :
      decode key = some "errors" → (key, .array items) ∈ fields → .object inside ∈ items →
      Spoiled Diagnostic.mandatory Diagnostic.voluntary inside → Broken (.object fields)

theorem ofJson_some {fields : List (List Char × Json)} {r : Report}
    (h : ofJson (.object fields) = some r) :
    ∃ decoded items ds, decodeKeys fields = some decoded ∧
      required "errors" decoded = some (.array items) ∧ (required "total_errors" decoded).isSome ∧
      items.mapM (Diagnostic.ofJson 3) = some ds := by
  simp only [ofJson, Option.bind_eq_bind, Option.bind_eq_some_iff] at h
  obtain ⟨decoded, hd, errors, he, total, ht, hp⟩ := h
  unfold ofParts at hp
  split at hp
  · next items =>
    obtain ⟨ds, hm, -⟩ := Option.bind_eq_some_iff.mp hp
    exact ⟨decoded, items, ds, hd, he, by rw [ht]; rfl, hm⟩
  · cases hp

theorem ofJson_broken {j : Json} (h : Broken j) : ofJson j = none := by
  by_contra hs
  obtain ⟨r, hr⟩ := Option.ne_none_iff_exists'.mp hs
  cases h with
  | outer hspoiled =>
    obtain ⟨decoded, items, ds, hd, he, ht, -⟩ := ofJson_some hr
    refine not_spoiled hd ?_ (List.forall_mem_nil _) hspoiled
    simp [keys, he, ht]
  | @inner fields inside key items hk hm hi hspoiled =>
    obtain ⟨decoded, items', ds, hd, he, -, hds⟩ := ofJson_some hr
    -- The key comes once, so these are the items that were decoded.
    have hv : Json.array items ∈ valuesOf "errors" decoded := by
      rw [valuesOf_decoded hd, List.mem_filterMap]
      exact ⟨_, hm, if_pos hk⟩
    rw [required_eq_some he, List.mem_singleton] at hv
    cases hv
    exact mem_of_mapM hds _ hi (Diagnostic.ofJson_spoiled 3 hspoiled)

theorem presents_toJson (allowed : Json → Prop) (r : Report) : r.Presents allowed r.toJson := by
  refine ⟨r.errors.map Diagnostic.toJson, _, ?_, includes_self _ _ (r.known _), rfl⟩
  rw [List.forall₂_map_right_iff, List.forall₂_same]
  exact fun d _ => Diagnostic.presents_toJson allowed d

theorem wellFormed_toJson (r : Report) : r.toJson.WellFormed := by
  have hd : ∀ item ∈ r.errors.map Diagnostic.toJson, item.WellFormed := by
    rw [List.forall_mem_map]
    exact fun d _ => wellFormed_ofFields d.wellFormed_toFields
  refine wellFormed_ofFields ?_
  rw [List.forall_mem_cons, List.forall_mem_cons]
  exact ⟨.array hd, wellFormed_ofNat r.total, List.forall_mem_nil _⟩

end Report

namespace Fault

def keys : List String := ["kind", "message"]

def known (f : Fault) : List (String × Json) :=
  [("kind", ofString f.kind.tag), ("message", ofString f.message)]

/-- The tree is an object with the two fields of the fault in any order, among unknown ones. -/
def Presents (f : Fault) (j : Json) : Prop :=
  ∃ fields, Includes keys (fun _ => True) f.known fields ∧ j = .object fields

/-- A field is repeated or missing. -/
def Broken (j : Json) : Prop := ∃ fields, Spoiled keys [] fields ∧ j = .object fields

theorem Kind.ofTag?_tag (kind : Kind) : Kind.ofTag? kind.tag = some kind := by
  cases kind <;> decide

theorem ofJson_presents {f : Fault} {j : Json} (h : f.Presents j) : ofJson j = some f := by
  obtain ⟨fields, ⟨decoded, extra, hd, hp, hx⟩, rfl⟩ := h
  have other : ∀ f ∈ extra, f.1 ∉ keys := fun f hf => (hx f hf).1
  have hn : (f.known.map Prod.fst).Nodup := by simp [known]
  have kind : required "kind" decoded = some (ofString f.kind.tag) :=
    required_of_mem hp other (by decide) hn (by simp [known])
  have message : required "message" decoded = some (ofString f.message) :=
    required_of_mem hp other (by decide) hn (by simp [known])
  have htag : Kind.ofJson (ofString f.kind.tag) = some f.kind := by
    rw [ofString, Kind.ofJson, decode_encode, Option.bind_some, Kind.ofTag?_tag]
  simp only [ofJson, hd, kind, message, ofParts, htag, Option.bind_eq_bind, Option.bind_some,
    string?_ofString]

theorem ofJson_broken {j : Json} (h : Broken j) : ofJson j = none := by
  obtain ⟨fields, hspoiled, rfl⟩ := h
  by_contra hs
  obtain ⟨f, hf⟩ := Option.ne_none_iff_exists'.mp hs
  simp only [ofJson, Option.bind_eq_bind, Option.bind_eq_some_iff] at hf
  obtain ⟨decoded, hd, _, kind, _, message, -⟩ := hf
  refine not_spoiled hd ?_ (List.forall_mem_nil _) hspoiled
  simp [keys, kind, message]

theorem presents_toJson (f : Fault) : f.Presents f.toJson :=
  ⟨_, includes_self _ _ f.known, rfl⟩

theorem wellFormed_toJson (f : Fault) : f.toJson.WellFormed :=
  wellFormed_ofFields (by simp [wellFormed_ofString])

end Fault

/-- Decoding gives back what was encoded. Order does not matter, nor do unknown fields, except that
in a diagnostic their values must be such that they can be kept; a field that is asked for may not
come twice, and only a suggestion may be missing. -/
theorem Report.texts_decode_as_presented (r : Report) (h : r.InRange) (f : Fault) :
    Report.ofText r.toJson.written = some r ∧
    (∀ j : Json, j.WellFormed → r.Presents (fun _ => True) j →
      (r.Presents Keepable j → Report.ofText j.written = some r) ∧
      (¬ r.Presents Keepable j → Report.ofText j.written = none)) ∧
    (∀ j : Json, j.WellFormed → Report.Broken j → Report.ofText j.written = none) ∧
    Fault.ofText f.toJson.written = some f ∧
    (∀ j : Json, j.WellFormed → f.Presents j → Fault.ofText j.written = some f) ∧
    (∀ j : Json, j.WellFormed → Fault.Broken j → Fault.ofText j.written = none) := by
  refine ⟨?_, ?_, ?_, ?_, ?_, ?_⟩
  · rw [Report.ofText, bind_parse_written _ r.wellFormed_toJson]
    exact Report.ofJson_presents h (r.presents_toJson Keepable)
  · intro j hj hp
    rw [Report.ofText, bind_parse_written _ hj]
    exact ⟨Report.ofJson_presents h, Report.ofJson_unkept h hp⟩
  · intro j hj hb
    rw [Report.ofText, bind_parse_written _ hj]
    exact Report.ofJson_broken hb
  · rw [Fault.ofText, bind_parse_written _ f.wellFormed_toJson]
    exact Fault.ofJson_presents f.presents_toJson
  · intro j hj hp
    rw [Fault.ofText, bind_parse_written _ hj]
    exact Fault.ofJson_presents hp
  · intro j hj hb
    rw [Fault.ofText, bind_parse_written _ hj]
    exact Fault.ofJson_broken hb

/-- Everything in reverse order, the missing suggestion written out, and an unknown field in each
object; the one of the outer object could not be kept. -/
theorem Report.texts_decode_as_presented_reversed :
    let d : Diagnostic := ⟨"f", 1, "m", ⟨⟨1, 2⟩, ⟨3, 4⟩⟩, "s", none⟩
    let r : Report := ⟨[d], 1⟩
    let inner : List (String × Json) := d.toFields ++ [("suggestion", .null)] ++ [("x", .array [])]
    let outer : List (String × Json) :=
      r.known [ofFields inner.reverse] ++ [("x", .string ['\\', 'u', 'd', '8', '0', '0'])]
    let j := ofFields outer.reverse
    r.InRange ∧ j.WellFormed ∧ r.Presents Keepable j ∧ Report.ofText j.written = some r := by
  intro d r inner outer j
  have hd : d.InRange := ⟨by decide, by decide, by decide, by decide, by decide⟩
  have hr : r.InRange := ⟨List.forall_mem_singleton.mpr hd, by decide⟩
  have hi : ∀ field ∈ inner.reverse, field.2.WellFormed := by
    intro field hf
    rw [List.mem_reverse, List.mem_append, List.mem_append, List.mem_singleton,
      List.mem_singleton] at hf
    rcases hf with (hf | rfl) | rfl
    · exact d.wellFormed_toFields field hf
    · exact .null
    · exact .array (List.forall_mem_nil _)
  have hj : j.WellFormed := by
    refine wellFormed_ofFields fun field hf => ?_
    rw [List.mem_reverse] at hf
    simp only [outer, known, List.cons_append, List.nil_append, List.mem_cons, List.not_mem_nil,
      or_false] at hf
    rcases hf with rfl | rfl | rfl
    · exact .array (List.forall_mem_singleton.mpr (wellFormed_ofFields hi))
    · exact wellFormed_ofNat 1
    · exact .string (.unit (by decide) .nil)
  have hp (allowed : Json → Prop) (ha : allowed (.array [])) : r.Presents allowed j := by
    refine ⟨[ofFields inner.reverse], _, .cons ⟨_, _, .null rfl, ?_, rfl⟩ .nil, ?_, rfl⟩
    · refine includes_of_perm (List.reverse_perm inner) ?_
      exact List.forall_mem_singleton.mpr ⟨by decide, ha⟩
    · refine includes_of_perm (List.reverse_perm outer) ?_
      exact List.forall_mem_singleton.mpr ⟨by decide, trivial⟩
  have hkept : r.Presents Keepable j := hp Keepable ((keepable_iff _ _).mp (by decide))
  have laws := Report.texts_decode_as_presented r hr ⟨.hostFault, "m"⟩
  exact ⟨hr, hj, hkept, (laws.2.1 j hj (hp _ trivial)).1 hkept⟩

/-- An unknown number of a diagnostic is not ignored: no double holds it. -/
theorem Report.unknown_number_not_ignored :
    let d : Diagnostic := ⟨"f", 1, "m", ⟨⟨1, 2⟩, ⟨3, 4⟩⟩, "s", none⟩
    let r : Report := ⟨[d], 1⟩
    let inner : List (String × Json) := d.toFields ++ [("x", .number ['1', 'e', '4', '0', '0'])]
    let j := ofFields (r.known [ofFields inner])
    r.InRange ∧ j.WellFormed ∧ r.Presents (fun _ => True) j ∧ Report.ofText j.written = none := by
  intro d r inner j
  have hd : d.InRange := ⟨by decide, by decide, by decide, by decide, by decide⟩
  have hr : r.InRange := ⟨List.forall_mem_singleton.mpr hd, by decide⟩
  have hx : ∀ f ∈ [("x", Json.number ['1', 'e', '4', '0', '0'])],
      f.1 ∉ Diagnostic.mandatory ++ Diagnostic.voluntary := List.forall_mem_singleton.mpr (by decide)
  have hn : IsLiteral ['1', 'e', '4', '0', '0'] :=
    isLiteral_natural 1 none (some ⟨'e', Or.inl rfl, .none, digitsOf 400⟩)
  have hi : ∀ field ∈ inner, field.2.WellFormed := by
    rw [List.forall_mem_append, List.forall_mem_singleton]
    exact ⟨d.wellFormed_toFields, .number hn⟩
  have hj : j.WellFormed := by
    refine wellFormed_ofFields ?_
    rw [known, List.forall_mem_cons, List.forall_mem_singleton]
    exact ⟨.array (List.forall_mem_singleton.mpr (wellFormed_ofFields hi)), wellFormed_ofNat 1⟩
  have hinf : Diagnostic.ofJson 3 (ofFields inner) = none := by
    rw [ofFields, Diagnostic.ofJson_object hd .plain (decodeKeys_encode inner) (.refl _) hx]
    decide +kernel
  refine ⟨hr, hj, ?_, ?_⟩
  · refine ⟨[ofFields inner], _, .cons ⟨_, _, .plain, ?_, rfl⟩ .nil, includes_self _ _ _, rfl⟩
    exact includes_of_perm (.refl _) fun f hf => ⟨hx f hf, trivial⟩
  · rw [Report.ofText, bind_parse_written _ hj]
    refine (Report.ofJson_object hr.total (includes_self _ _ (r.known [ofFields inner]))).trans ?_
    rw [List.mapM_cons, hinf]
    rfl

end Lisplet
