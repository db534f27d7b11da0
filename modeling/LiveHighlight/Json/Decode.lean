import LiveHighlight.Json.Basic

/-!
# Decoding JSON values

Walks a value that may be broken, with the shape that is wanted, and gives the thing it describes or the first defect in the
order of the text. A value of another shape is a mismatch where it ends; an array or object where a plain value is wanted is
one where it begins, whatever it holds. A record is an object with the fields in any order, none of them twice and none
unknown, or an array of the fields in order, from which fields that may be missing may be left off at the end.
-/

namespace LiveHighlight

/-- Gives what a value describes, or the first defect. -/
abbrev Decoder (α : Type) : Type := Json → Except TextDefect α

namespace Decoder

/-- What a value of an unwanted shape comes to. -/
def unwanted {α : Type} : Decoder α
  | .broken defect => .error defect
  | _ => .error .mismatch

/-- Wants a string. -/
def string : Decoder String
  | .string s => .ok s
  | j => unwanted j

/-- Wants a truth value. -/
def bool : Decoder Bool
  | .bool b => .ok b
  | j => unwanted j

/-- Wants a number written with digits alone, up to a greatest one. -/
def natural (greatest : Nat) : Decoder Nat
  | .natural n => if n ≤ greatest then .ok n else .error .mismatch
  | j => unwanted j

variable {α ρ : Type}

/-- Takes null for nothing, and wants what `decode` wants of anything else. -/
def optional (decode : Decoder α) : Decoder (Option α)
  | .null => .ok none
  | j => (decode j).map some

/-- Wants an array of things. -/
def list (decode : Decoder α) : Decoder (List α)
  | .array items ending =>
    match items.mapM decode with
    | .error defect => .error defect
    | .ok things =>
      match ending with
      | .closed => .ok things
      | .stopped defect => .error defect
      | .dangling defect => .error defect
  | j => unwanted j

/-- A field of a record: its name, whether it must be there, and how its value changes the record. -/
structure RecordField (ρ : Type) where
  name : String
  required : Bool
  decode : Json → ρ → Except TextDefect ρ

/-- A field that sets what `decode` gives. -/
def RecordField.of (name : String) (required : Bool) (decode : Decoder α) (set : ρ → α → ρ) : RecordField ρ :=
  ⟨name, required, fun j r => (decode j).map (set r)⟩

/-- Reads the fields of an object into a record, given the names seen before, and gives the names seen in the end. -/
def objectFields (fields : List (RecordField ρ)) :
    (seen : List String) → ρ → List (String × Json) → Except TextDefect (List String × ρ)
  | seen, r, [] => .ok (seen, r)
  | seen, r, (name, j) :: rest =>
    match fields.find? (·.name = name) with
    | none => .error .mismatch
    | some field =>
      if name ∈ seen then .error .mismatch
      else match field.decode j r with
        | .error defect => .error defect
        | .ok r => objectFields fields (name :: seen) r rest

/-- Reads items, field by field, into a record. -/
def arrayFields : List (RecordField ρ) → ρ → List Json → Ending → Except TextDefect ρ
  | [], r, [], .closed => .ok r
  | [], _, [], .stopped defect => .error defect
  | [], _, [], .dangling _ => .error .malformed
  | [], _, _ :: _, _ => .error .malformed
  | field :: fields, r, [], .closed => if field.required then .error .mismatch else arrayFields fields r [] .closed
  | _ :: _, _, [], .stopped defect => .error defect
  | _ :: _, _, [], .dangling defect => .error defect
  | field :: fields, r, j :: rest, ending =>
    match field.decode j r with
    | .error defect => .error defect
    | .ok r => arrayFields fields r rest ending

/-- Wants a record; `blank` is the record of which nothing is said. -/
def record (fields : List (RecordField ρ)) (blank : ρ) : Decoder ρ
  | .object found ending =>
    match objectFields fields [] blank found with
    | .error defect => .error defect
    | .ok (seen, r) =>
      match ending with
      | .closed => if fields.all fun f => !f.required || seen.contains f.name then .ok r else .error .mismatch
      | .stopped defect => .error defect
      | .dangling defect => .error defect
  | .array items ending => arrayFields fields blank items ending
  | j => unwanted j

end Decoder

end LiveHighlight
