import LiveHighlight.Grammar.Description
import LiveHighlight.Grammar.Languages
import LiveHighlight.Json.Decode
import LiveHighlight.Json.Printer
import LiveHighlight.Json.Reader

/-!
# Grammar definitions

A definition is the JSON form of a grammar description, together with the file extensions that the language applies to.
-/

namespace LiveHighlight

/-- A grammar description with its file extensions, as a definition file holds it. -/
structure Definition where
  name : String
  start : Option String
  extensions : List String
  states : List StateSpec
  deriving DecidableEq, Repr, Inhabited

namespace Definition

/-- The greatest color number of a definition. -/
def greatestColor : Nat := 0xFFFF

open Decoder in
/-- The fields of an element, none of which must be there. -/
def elementFields : List (RecordField ElementSpec) :=
  [.of "term" false (optional string) fun e v => { e with terminal := v },
   .of "state" false (optional string) fun e v => { e with state := v },
   .of "value" false (optional string) fun e v => { e with value := v },
   .of "color" false (natural greatestColor) fun e v => { e with color := v },
   .of "visible" false (optional bool) fun e v => { e with visible := v },
   .of "word" false bool fun e v => { e with word := v },
   .of "min" false (optional (natural unlimited)) fun e v => { e with min := v },
   .of "max" false (optional (natural unlimited)) fun e v => { e with max := v }]

/-- Wants an element. -/
def element : Decoder ElementSpec := .record elementFields .blank

open Decoder in
/-- The fields of a state, which must all be there. -/
def stateFields : List (RecordField StateSpec) :=
  [.of "name" true string fun s v => { s with name := v },
   .of "productions" true (list (list element)) fun s v => { s with productions := v }]

/-- Wants a state. -/
def state : Decoder StateSpec := .record stateFields ⟨"", []⟩

open Decoder in
/-- The fields of a definition. The start state and the extensions may be missing. -/
def fields : List (RecordField Definition) :=
  [.of "name" true string fun d v => { d with name := v },
   .of "start" false (optional string) fun d v => { d with start := v },
   .of "extensions" false (list string) fun d v => { d with extensions := v },
   .of "states" true (list state) fun d v => { d with states := v }]

/-- Wants a definition. -/
def decode : Decoder Definition := .record fields ⟨"", none, [], []⟩

/-- Reads a definition from JSON text. What follows it counts only when it is a definition. -/
def ofText (text : String) : Except GrammarError Definition :=
  match Json.ofText text with
  | (value, more) =>
    match decode value with
    | .error defect => .error (.badDefinition defect)
    | .ok d => if more then .error (.badDefinition .malformed) else .ok d

/-- Reads a definition from the bytes of a file, if there is one. -/
def ofFile (bytes : Option ByteArray) : Except GrammarError Definition :=
  match bytes.bind String.fromUTF8? with
  | some text => ofText text
  | none => .error .unreadable

/-- The value of something that may be missing. -/
def optionalJson {α : Type} (json : α → Json) (a : Option α) : Json := (a.map json).getD .null

/-- An array of things. -/
def listJson {α : Type} (json : α → Json) (things : List α) : Json := .array (things.map json) .closed

/-- An element with all its fields. -/
def elementJson (e : ElementSpec) : Json :=
  .object
    [("term", optionalJson .string e.terminal), ("state", optionalJson .string e.state),
     ("value", optionalJson .string e.value), ("color", .natural e.color), ("visible", optionalJson .bool e.visible),
     ("word", .bool e.word), ("min", optionalJson .natural e.min), ("max", optionalJson .natural e.max)] .closed

/-- A state with all its fields. -/
def stateJson (s : StateSpec) : Json :=
  .object [("name", .string s.name), ("productions", listJson (listJson elementJson) s.productions)] .closed

/-- A definition with all its fields. -/
def toJson (d : Definition) : Json :=
  .object
    [("name", .string d.name), ("start", optionalJson .string d.start), ("extensions", listJson .string d.extensions),
     ("states", listJson stateJson d.states)] .closed

/-- The description that a definition holds. -/
def spec (d : Definition) : GrammarSpec := ⟨d.name, d.start, d.states⟩

/-- Builds the grammar with the text terminal classes. -/
def build (d : Definition) : Except GrammarError Grammar := d.spec.build .standard

end Definition

/-- Builds the grammar that a definition describes and registers it for the extensions the definition gives. -/
def Languages.registerDefinition (l : Languages) (d : Definition) : Except GrammarError (Grammar × Languages) := do
  let g ← d.build
  return (g, ← l.register g d.extensions)

end LiveHighlight
