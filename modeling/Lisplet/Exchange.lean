import Lisplet.Context
import Lisplet.Diagnostic
import Lisplet.Fault
import Lisplet.Json

/-!
Diagnostics, reports, faults and settings as JSON. An object may have its fields in any order and
fields that nobody asks for; a field that is asked for must not come twice.
-/

namespace Lisplet

namespace Json

/-- The fields of an object with their keys decoded. -/
def decodeKeys : List (List Char × Json) → Option (List (String × Json))
  | [] => some []
  | (key, value) :: fields => do
    let key ← decode key
    let fields ← decodeKeys fields
    some ((key, value) :: fields)

/-- All values of a key, in order. -/
def valuesOf (key : String) (fields : List (String × Json)) : List Json :=
  fields.filterMap fun field => if field.1 = key then some field.2 else none

/-- The value of a key that must be there. -/
def required (key : String) (fields : List (String × Json)) : Option Json :=
  match valuesOf key fields with
  | [value] => some value
  | _ => none

/-- The value of a key that may be missing. -/
def optional (key : String) (fields : List (String × Json)) : Option (Option Json) :=
  match valuesOf key fields with
  | [] => some none
  | [value] => some (some value)
  | _ => none

/-- An object with these keys. -/
def ofFields (fields : List (String × Json)) : Json :=
  .object (fields.map fun field => (encode field.1, field.2))

/-- How deep arrays and objects may nest where a value is kept. -/
def nesting : Nat := 127

end Json

open Json

namespace Context

def ofJson : Json → Option Context
  | .object fields => do
    match ← optional "trace" (← decodeKeys fields) with
    | none => some default
    | some (.bool trace) => some ⟨trace⟩
    | some _ => none
  | .array [] => some default
  | .array [.bool trace] => some ⟨trace⟩
  | _ => none

def ofText (text : String) : Option Context := (Json.parse text).bind ofJson

end Context

namespace Fault

/-- A kind is its tag, or an object with the tag as its only key. -/
def Kind.ofJson : Json → Option Kind
  | .string tag => (decode tag).bind Kind.ofTag?
  | .object [(tag, .null)] => (decode tag).bind Kind.ofTag?
  | _ => none

def ofParts (kind message : Json) : Option Fault := do
  some ⟨← Kind.ofJson kind, ← message.string?⟩

/-- An object, or the array of its fields. -/
def ofJson : Json → Option Fault
  | .object fields => do
    let fields ← decodeKeys fields
    ofParts (← required "kind" fields) (← required "message" fields)
  | .array [kind, message] => ofParts kind message
  | _ => none

def toJson (f : Fault) : Json :=
  ofFields [("kind", ofString f.kind.tag), ("message", ofString f.message)]

def ofText (text : String) : Option Fault := (Json.parse text).bind ofJson

end Fault

namespace Diagnostic

def textKeys : List String := ["file", "code", "message", "source_line", "suggestion"]

/-- Values under other keys are kept, at `level` containers from the outside. -/
def otherFieldsKeepable (level : Nat) (fields : List (String × Json)) : Bool :=
  fields.all fun field => textKeys.contains field.1 || keepable (nesting - level) field.2

def codeBound : Nat := 0x10000

def placeBound : Nat := 0x100000000

def place? (lineKey columnKey : String) (fields : List (String × Json)) : Option Position := do
  let line ← (← required lineKey fields).whole? placeBound
  let column ← (← required columnKey fields).whole? placeBound
  some ⟨line, column⟩

def suggestion? (fields : List (String × Json)) : Option (Option String) := do
  match ← optional "suggestion" fields with
  | none | some .null => some none
  | some value => value.string?.map some

/-- A diagnostic that stands `level` containers from the outside. -/
def ofJson (level : Nat) : Json → Option Diagnostic
  | .object fields => do
    let fields ← decodeKeys fields
    let file ← (← required "file" fields).string?
    let code ← (← required "code" fields).whole? codeBound
    let message ← (← required "message" fields).string?
    let first ← place? "line" "column" fields
    let last ← place? "end_line" "end_column" fields
    let sourceLine ← (← required "source_line" fields).string?
    let suggestion ← suggestion? fields
    if otherFieldsKeepable level fields then
      some ⟨file, code, message, ⟨first, last⟩, sourceLine, suggestion⟩
    else none
  | _ => none

/-- The fields in the order in which they are written. -/
def toFields (d : Diagnostic) : List (String × Json) :=
  [("file", ofString d.file), ("code", .ofNat d.code), ("message", ofString d.message),
   ("line", .ofNat d.span.first.line), ("column", .ofNat d.span.first.column),
   ("end_line", .ofNat d.span.last.line), ("end_column", .ofNat d.span.last.column),
   ("source_line", ofString d.sourceLine)] ++
  match d.suggestion with
  | some suggestion => [("suggestion", ofString suggestion)]
  | none => []

def toJson (d : Diagnostic) : Json := ofFields d.toFields

def ofText (text : String) : Option Diagnostic := (Json.parse text).bind (ofJson 1)

end Diagnostic

namespace Report

def totalBound : Nat := 0x10000000000000000

def ofParts (errors total : Json) : Option Report := do
  match errors with
  | .array items => some ⟨← items.mapM (Diagnostic.ofJson 3), ← total.whole? totalBound⟩
  | _ => none

/-- An object, or the array of its fields. -/
def ofJson : Json → Option Report
  | .object fields => do
    let fields ← decodeKeys fields
    ofParts (← required "errors" fields) (← required "total_errors" fields)
  | .array [errors, total] => ofParts errors total
  | _ => none

def toJson (r : Report) : Json :=
  ofFields [("errors", .array (r.errors.map Diagnostic.toJson)), ("total_errors", .ofNat r.total)]

def ofText (text : String) : Option Report := (Json.parse text).bind ofJson

end Report

end Lisplet
