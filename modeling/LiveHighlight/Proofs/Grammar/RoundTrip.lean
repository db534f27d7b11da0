import LiveHighlight.Grammar.Definition
import LiveHighlight.Proofs.Json.Printing
import LiveHighlight.Proofs.Json.Records

/-!
# Definitions and their JSON

A definition is read back from its JSON text, and from any other that says the same: fields of objects may stand in any order, and
those of elements that hold what an element has without them may be left out, and so may a start state that is not named and
extensions of which there are none (`Definition.Form`). What has a field that is not declared, be it a definition, a state or an
element, is refused (`Definition.Strays`). Both is `Definition.round_trip`.
-/

namespace LiveHighlight

/-- Whether the numbers of an element are small enough to be read: a color has 16 bits, and a limit 64. -/
structure ElementSpec.Fits (e : ElementSpec) : Prop where
  color : e.color ≤ Definition.greatestColor
  min : ∀ n ∈ e.min, n ≤ unlimited
  max : ∀ n ∈ e.max, n ≤ unlimited

namespace Definition

/-- Whether the numbers of a definition are small enough to be read. -/
def Fits (d : Definition) : Prop := ∀ state ∈ d.states, ∀ elements ∈ state.productions, ∀ e ∈ elements, e.Fits

/-- Whether a value says of an element what its JSON says: fields that hold what an element has without them may be left out. -/
def ElementForm (e : ElementSpec) (j : Json) : Prop := j.Abridges (elementJson .blank).fields (elementJson e).fields

/-- Whether a value says of a state what its JSON says. -/
def StateForm (s : StateSpec) (j : Json) : Prop :=
  ∃ productions : List (List Json), List.Forall₂ (List.Forall₂ ElementForm) s.productions productions ∧
    j.Abridges [] [("name", .string s.name), ("productions", .array (productions.map (.array · .closed)) .closed)]

/-- Whether a value says what the JSON of a definition says: a start state that is not named and extensions of which there are none
may be left out. -/
def Form (d : Definition) (j : Json) : Prop :=
  ∃ states : List Json, List.Forall₂ StateForm d.states states ∧
    j.Abridges [("start", .null), ("extensions", .array [] .closed)]
      [("name", .string d.name), ("start", optionalJson .string d.start), ("extensions", listJson .string d.extensions),
       ("states", .array states .closed)]

/-- What stands for the states in a value that stands for a definition. -/
def statesOf (j : Json) : List Json := (Decoder.valuesOf fields "states" j).flatMap (·.items)

/-- What stands for the elements in a value that stands for a state. -/
def elementsOf (j : Json) : List Json := ((Decoder.valuesOf stateFields "productions" j).flatMap (·.items)).flatMap (·.items)

/-- Whether a value that stands for a definition has a field that is not declared: one of its own, one of a state, or one of an
element. -/
def Strays (j : Json) : Prop :=
  j.Strays (fields.map (·.name)) ∨
    ∃ state ∈ statesOf j, state.Strays (stateFields.map (·.name)) ∨
      ∃ e ∈ elementsOf state, e.Strays (elementFields.map (·.name))

end Definition

namespace RoundTripAux

open Definition
open Decoder (RecordField Adds)

/-! ## Plain values -/

theorem optional_optionalJson {α : Type} {decode : Decoder α} {json : α → Json} (hnull : ∀ a, json a ≠ .null) {a : Option α}
    (h : ∀ b ∈ a, decode (json b) = .ok b) : Decoder.optional decode (optionalJson json a) = .ok a := by
  cases a with
  | none => rfl
  | some b =>
    have hb := h b rfl
    have hsome : optionalJson json (some b) = json b := rfl
    rw [hsome]
    unfold Decoder.optional
    split
    · next heq => exact absurd heq (hnull b)
    · rw [hb]
      rfl

/-- What may be missing is known from its JSON if what is there is. -/
theorem eq_of_optionalJson {α : Type} {json : α → Json} (hnull : ∀ a, json a ≠ .null) (hinj : ∀ a b, json a = json b → a = b)
    {a b : Option α} (h : optionalJson json a = optionalJson json b) : a = b := by
  cases a with
  | none =>
    cases b with
    | none => rfl
    | some b => exact absurd h.symm (hnull b)
  | some a =>
    cases b with
    | none => exact absurd h (hnull a)
    | some b => rw [hinj a b h]

theorem optional_string (a : Option String) : Decoder.optional .string (optionalJson .string a) = .ok a :=
  optional_optionalJson (by simp) fun _ _ => rfl

/-- A field adds what its decoder gives if it sets what is known with it. -/
theorem adds_of {α ρ : Type} {fields : List (RecordField ρ)} {known : List String → ρ} (i : Nat) {name : String} {required : Bool}
    {decode : Decoder α} {set : ρ → α → ρ} (hfield : fields[i]? = some (.of name required decode set)) {j : Json} {a : α}
    (h : decode j = .ok a) (hset : ∀ seen, set (known seen) a = known (name :: seen)) : Adds fields known (name, j) := by
  intro seen
  refine ⟨_, List.mem_of_getElem? hfield, rfl, ?_⟩
  simp only [RecordField.of, h, Except.map, hset]

/-- What is known is all if what is not known is what it would be without. -/
theorem ite_mem_eq {α : Type} {name : String} {names : List String} {value without : α} (h : name ∈ names ∨ value = without) :
    (if name ∈ names then value else without) = value := by
  split
  · rfl
  · next hne => exact (h.resolve_left hne).symm

/-! ## Elements -/

/-- The element of which only the fields of some names are known. -/
def knownElement (e : ElementSpec) (names : List String) : ElementSpec where
  terminal := if "term" ∈ names then e.terminal else ElementSpec.blank.terminal
  state := if "state" ∈ names then e.state else ElementSpec.blank.state
  value := if "value" ∈ names then e.value else ElementSpec.blank.value
  color := if "color" ∈ names then e.color else ElementSpec.blank.color
  visible := if "visible" ∈ names then e.visible else ElementSpec.blank.visible
  word := if "word" ∈ names then e.word else ElementSpec.blank.word
  min := if "min" ∈ names then e.min else ElementSpec.blank.min
  max := if "max" ∈ names then e.max else ElementSpec.blank.max

theorem adds_element {e : ElementSpec} (he : e.Fits) : ∀ f ∈ (elementJson e).fields, Adds elementFields (knownElement e) f := by
  have truth : Decoder.optional .bool (optionalJson .bool e.visible) = .ok e.visible :=
    optional_optionalJson (by simp) fun _ _ => rfl
  have word : Decoder.bool (.bool e.word) = .ok e.word := rfl
  have limit {a : Option Nat} (ha : ∀ n ∈ a, n ≤ unlimited) :
      Decoder.optional (.natural unlimited) (optionalJson .natural a) = .ok a :=
    optional_optionalJson (by simp) fun n hn => if_pos (ha n hn)
  intro f hf
  simp only [elementJson, Json.fields, List.mem_cons, List.not_mem_nil, or_false] at hf
  rcases hf with rfl | rfl | rfl | rfl | rfl | rfl | rfl | rfl
  · exact adds_of 0 rfl (optional_string e.terminal) fun seen => by simp [knownElement]
  · exact adds_of 1 rfl (optional_string e.state) fun seen => by simp [knownElement]
  · exact adds_of 2 rfl (optional_string e.value) fun seen => by simp [knownElement]
  · exact adds_of 3 rfl (if_pos he.color) fun seen => by simp [knownElement]
  · exact adds_of 4 rfl truth fun seen => by simp [knownElement]
  · exact adds_of 5 rfl word fun seen => by simp [knownElement]
  · exact adds_of 6 rfl (limit he.min) fun seen => by simp [knownElement]
  · exact adds_of 7 rfl (limit he.max) fun seen => by simp [knownElement]

/-- An element is known if what is left out is what an element has without it. -/
theorem knownElement_eq {e : ElementSpec} {names : List String}
    (h : ∀ f ∈ (elementJson e).fields, f.1 ∈ names ∨ f ∈ (elementJson .blank).fields) : knownElement e names = e := by
  obtain ⟨hterminal, hstate, hvalue, hcolor, hvisible, hword, hmin, hmax⟩ :
      ("term" ∈ names ∨ optionalJson .string e.terminal = optionalJson .string ElementSpec.blank.terminal) ∧
      ("state" ∈ names ∨ optionalJson .string e.state = optionalJson .string ElementSpec.blank.state) ∧
      ("value" ∈ names ∨ optionalJson .string e.value = optionalJson .string ElementSpec.blank.value) ∧
      ("color" ∈ names ∨ e.color = ElementSpec.blank.color) ∧
      ("visible" ∈ names ∨ optionalJson .bool e.visible = optionalJson .bool ElementSpec.blank.visible) ∧
      ("word" ∈ names ∨ e.word = ElementSpec.blank.word) ∧
      ("min" ∈ names ∨ optionalJson .natural e.min = optionalJson .natural ElementSpec.blank.min) ∧
      ("max" ∈ names ∨ optionalJson .natural e.max = optionalJson .natural ElementSpec.blank.max) := by
    simpa [elementJson, Json.fields] using h
  have text {a b : Option String} (h : optionalJson .string a = optionalJson .string b) : a = b :=
    eq_of_optionalJson (by simp) (by simp) h
  have truth {a b : Option Bool} (h : optionalJson .bool a = optionalJson .bool b) : a = b :=
    eq_of_optionalJson (by simp) (by simp) h
  have limit {a b : Option Nat} (h : optionalJson .natural a = optionalJson .natural b) : a = b :=
    eq_of_optionalJson (by simp) (by simp) h
  simp only [knownElement, ite_mem_eq (hterminal.imp_right text), ite_mem_eq (hstate.imp_right text),
    ite_mem_eq (hvalue.imp_right text), ite_mem_eq hcolor, ite_mem_eq (hvisible.imp_right truth), ite_mem_eq hword,
    ite_mem_eq (hmin.imp_right limit), ite_mem_eq (hmax.imp_right limit)]

/-- An element is decoded from every value that says of it what its JSON says. -/
theorem element_of_form {e : ElementSpec} (he : e.Fits) {j : Json} (hj : ElementForm e j) : element j = .ok e :=
  Decoder.record_of_abridges (knownElement e) hj rfl (by decide) (adds_element he) (by simp [elementFields, RecordField.of])
    fun _ hknown => knownElement_eq hknown

/-! ## States -/

/-- The state of which only the fields of some names are known. -/
def knownState (s : StateSpec) (names : List String) : StateSpec where
  name := if "name" ∈ names then s.name else ""
  productions := if "productions" ∈ names then s.productions else []

/-- A state is decoded from every value that says of it what its JSON says. -/
theorem state_of_form {s : StateSpec} (hs : ∀ elements ∈ s.productions, ∀ e ∈ elements, e.Fits) {j : Json} (hj : StateForm s j) :
    state j = .ok s := by
  obtain ⟨productions, hforms, habridges⟩ := hj
  have hproductions : Decoder.list (.list element) (.array (productions.map (.array · .closed)) .closed) = .ok s.productions := by
    refine Decoder.list_of_forall₂ (List.forall₂_map_left_iff.2 ?_)
    refine ((List.forall₂_and_left _ _).2 ⟨hs, hforms⟩).flip.imp ?_
    rintro items elements ⟨hfits, hrow⟩
    refine Decoder.list_of_forall₂ (((List.forall₂_and_left _ _).2 ⟨hfits, hrow⟩).flip.imp ?_)
    rintro item e ⟨he, hitem⟩
    exact element_of_form he hitem
  refine Decoder.record_of_abridges (knownState s) habridges rfl (by decide) ?_ (by simp) ?_
  · intro f hf
    simp only [List.mem_cons, List.not_mem_nil, or_false] at hf
    rcases hf with rfl | rfl
    · have hname : Decoder.string (.string s.name) = .ok s.name := rfl
      exact adds_of 0 rfl hname fun seen => by simp [knownState]
    · exact adds_of 1 rfl hproductions fun seen => by simp [knownState]
  · intro names hknown
    obtain ⟨hnamed, hproduced⟩ : "name" ∈ names ∧ "productions" ∈ names := by simpa using hknown
    simp only [knownState, ite_mem_eq (.inl hnamed), ite_mem_eq (.inl hproduced)]

/-! ## Definitions -/

/-- The definition of which only the fields of some names are known. -/
def knownDefinition (d : Definition) (names : List String) : Definition where
  name := if "name" ∈ names then d.name else ""
  start := if "start" ∈ names then d.start else none
  extensions := if "extensions" ∈ names then d.extensions else []
  states := if "states" ∈ names then d.states else []

/-- A definition is decoded from every value that says what its JSON says. -/
theorem decode_of_form {d : Definition} (hd : d.Fits) {j : Json} (hj : d.Form j) : decode j = .ok d := by
  obtain ⟨states, hforms, habridges⟩ := hj
  have hname : Decoder.string (.string d.name) = .ok d.name := rfl
  have hextensions : Decoder.list .string (listJson .string d.extensions) = .ok d.extensions := by
    refine Decoder.list_of_forall₂ (List.forall₂_map_left_iff.2 (List.forall₂_same.2 fun _ _ => rfl))
  have hstates : Decoder.list state (.array states .closed) = .ok d.states := by
    refine Decoder.list_of_forall₂ (((List.forall₂_and_left _ _).2 ⟨hd, hforms⟩).flip.imp ?_)
    rintro item s ⟨hs, hitem⟩
    exact state_of_form hs hitem
  refine Decoder.record_of_abridges (knownDefinition d) habridges rfl (by decide) ?_ (by simp [fields, RecordField.of]) ?_
  · intro f hf
    simp only [List.mem_cons, List.not_mem_nil, or_false] at hf
    rcases hf with rfl | rfl | rfl | rfl
    · exact adds_of 0 rfl hname fun seen => by simp [knownDefinition]
    · exact adds_of 1 rfl (optional_string d.start) fun seen => by simp [knownDefinition]
    · exact adds_of 2 rfl hextensions fun seen => by simp [knownDefinition]
    · exact adds_of 3 rfl hstates fun seen => by simp [knownDefinition]
  · intro names hknown
    obtain ⟨hnamed, hstart, hextended, hdeclared⟩ : "name" ∈ names ∧
        ("start" ∈ names ∨ optionalJson .string d.start = .null) ∧
        ("extensions" ∈ names ∨ d.extensions = []) ∧ "states" ∈ names := by simpa [listJson] using hknown
    have hunnamed (h : optionalJson .string d.start = optionalJson .string none) : d.start = none :=
      eq_of_optionalJson (by simp) (by simp) h
    simp only [knownDefinition, ite_mem_eq (.inl hnamed), ite_mem_eq (hstart.imp_right hunnamed), ite_mem_eq hextended,
      ite_mem_eq (.inl hdeclared)]

/-! ## Texts -/

/-- An object that has fields of a whole one is whole. -/
theorem whole_of_abridges {spare full : List (String × Json)} {j : Json} (hj : j.Abridges spare full)
    (hfull : ∀ f ∈ full, f.2.Whole) : j.Whole := by
  obtain ⟨found, left, rfl, hperm, -⟩ := hj
  exact .object fun f hf => hfull f (hperm.mem_iff.1 (List.mem_append_left _ hf))

theorem whole_optionalJson {α : Type} {json : α → Json} {a : Option α} (h : ∀ b ∈ a, (json b).Whole) :
    (optionalJson json a).Whole := by
  cases a with
  | none => exact .null
  | some b => exact h b rfl

theorem whole_element {e : ElementSpec} (he : e.Fits) {j : Json} (hj : ElementForm e j) : j.Whole := by
  have hcolor : e.color ≤ 0xFFFFFFFFFFFFFFFF := Nat.le_trans he.color (by decide)
  have text (a : Option String) : (optionalJson .string a).Whole := whole_optionalJson fun s _ => .string s
  refine whole_of_abridges hj fun f hf => ?_
  simp only [elementJson, Json.fields, List.mem_cons, List.not_mem_nil, or_false] at hf
  rcases hf with rfl | rfl | rfl | rfl | rfl | rfl | rfl | rfl
  · exact text e.terminal
  · exact text e.state
  · exact text e.value
  · exact .natural hcolor
  · exact whole_optionalJson fun b _ => .bool b
  · exact .bool e.word
  · exact whole_optionalJson fun n hn => .natural (he.min n hn)
  · exact whole_optionalJson fun n hn => .natural (he.max n hn)

theorem whole_state {s : StateSpec} (hs : ∀ elements ∈ s.productions, ∀ e ∈ elements, e.Fits) {j : Json} (hj : StateForm s j) :
    j.Whole := by
  obtain ⟨productions, hforms, habridges⟩ := hj
  refine whole_of_abridges habridges fun f hf => ?_
  simp only [List.mem_cons, List.not_mem_nil, or_false] at hf
  rcases hf with rfl | rfl
  · exact .string s.name
  · refine .array fun row hrow => ?_
    obtain ⟨items, hitems, rfl⟩ := List.mem_map.1 hrow
    obtain ⟨elements, helements, hrow⟩ := BuildAux.exists_left hforms hitems
    refine .array fun item hitem => ?_
    obtain ⟨e, he, hform⟩ := BuildAux.exists_left hrow hitem
    exact whole_element (hs elements helements e he) hform

/-- A value that says what the JSON of a definition says has a text. -/
theorem whole_of_form {d : Definition} (hd : d.Fits) {j : Json} (hj : d.Form j) : j.Whole := by
  obtain ⟨states, hforms, habridges⟩ := hj
  refine whole_of_abridges habridges fun f hf => ?_
  simp only [List.mem_cons, List.not_mem_nil, or_false] at hf
  rcases hf with rfl | rfl | rfl | rfl
  · exact .string d.name
  · exact whole_optionalJson fun s _ => .string s
  · refine .array fun j hj => ?_
    obtain ⟨extension, -, rfl⟩ := List.mem_map.1 hj
    exact .string extension
  · refine .array fun item hitem => ?_
    obtain ⟨s, hs, hform⟩ := BuildAux.exists_left hforms hitem
    exact whole_state (hd s hs) hform

/-- The JSON of a definition says what it says. -/
theorem form_toJson (d : Definition) : d.Form d.toJson := by
  have hstate (s : StateSpec) : StateForm s (stateJson s) := by
    refine ⟨s.productions.map (·.map elementJson), ?_, ?_⟩
    · rw [List.forall₂_map_right_iff]
      refine List.forall₂_same.2 fun elements _ => ?_
      rw [List.forall₂_map_right_iff]
      exact List.forall₂_same.2 fun e _ => Json.abridges_refl _ _
    · have hrows : stateJson s = .object [("name", .string s.name),
          ("productions", .array ((s.productions.map (·.map elementJson)).map (.array · .closed)) .closed)] .closed := by
        simp [stateJson, listJson, Function.comp_def]
      rw [hrows]
      exact Json.abridges_refl _ _
  refine ⟨d.states.map stateJson, ?_, Json.abridges_refl _ _⟩
  rw [List.forall₂_map_right_iff]
  exact List.forall₂_same.2 fun s _ => hstate s

/-! ## Values that stray -/

/-- What is decoded has no field that is not declared. -/
theorem not_strays_of_decode {j : Json} {d : Definition} (h : decode j = .ok d) : ¬Strays j := by
  rintro (hstrays | ⟨item, hitem, hstrays⟩)
  · exact (Decoder.accepts_of_record h).1 hstrays
  · obtain ⟨v, hv, hmem⟩ := List.mem_flatMap.1 hitem
    obtain ⟨s, hs⟩ := Decoder.accepts_items h (by decide) 3 rfl v hv item hmem
    rcases hstrays with hstrays | ⟨inner, hinner, hstrays⟩
    · exact (Decoder.accepts_of_record hs).1 hstrays
    · obtain ⟨row, hrow, hmem⟩ := List.mem_flatMap.1 hinner
      obtain ⟨v, hv, hmem'⟩ := List.mem_flatMap.1 hrow
      obtain ⟨elements, helements⟩ := Decoder.accepts_items hs (by decide) 1 rfl v hv row hmem'
      obtain ⟨e, he⟩ := Decoder.accepts_of_list helements inner hmem
      exact (Decoder.accepts_of_record he).1 hstrays

/-- A text is that of a definition if the value it holds is decoded and nothing follows it. -/
theorem ofText_of_decode {text : String} {j : Json} {d : Definition} (htext : Json.ofText text = (j, false))
    (h : decode j = .ok d) : Definition.ofText text = .ok d := by
  simp [Definition.ofText, htext, h]

end RoundTripAux

open RoundTripAux

/-- A definition whose numbers are small enough to be read is read back from its JSON text. It is read from the text of every value,
and from every text that is read as a value, that says the same with the fields of objects in another order and without fields that
hold what there is without them. A text that has a definition, a state or an element with a field that is not declared is
refused. -/
theorem Definition.round_trip :
    (∀ d : Definition, d.Fits → Definition.ofText d.toJson.toText = .ok d ∧
      ∀ j, d.Form j → Definition.ofText j.toText = .ok d ∧
        ∀ text, Json.ofText text = (j, false) → Definition.ofText text = .ok d) ∧
    ∀ text, Strays (Json.ofText text).1 → ∃ defect, Definition.ofText text = .error (.badDefinition defect) := by
  constructor
  · intro d hd
    have hform {j : Json} (hj : d.Form j) {text : String} (htext : Json.ofText text = (j, false)) :
        Definition.ofText text = .ok d := ofText_of_decode htext (decode_of_form hd hj)
    have hread {j : Json} (hj : d.Form j) : Definition.ofText j.toText = .ok d := hform hj (whole_of_form hd hj).ofText_toText
    exact ⟨hread (form_toJson d), fun j hj => ⟨hread hj, fun text htext => hform hj htext⟩⟩
  · intro text hstrays
    simp only [Definition.ofText]
    split
    · next defect _ => exact ⟨defect, rfl⟩
    · next d hd => exact absurd hstrays (not_strays_of_decode hd)

/-- A number of the greatest color and with the greatest limit. -/
def greatestNumber : ElementSpec :=
  { ElementSpec.blank with terminal := "number", color := 0xFFFF, min := some 0, max := some 0xFFFFFFFFFFFFFFFF }

/-- A definition with a name that needs escapes, and an empty production. -/
def quotedDefinition : Definition := ⟨"a \"b\"\\\n\x01é", none, [], [⟨"start", [[greatestNumber], []]⟩]⟩

/-- The number said shorter and the other way round. -/
def greatestForm : Json :=
  .object [("max", .natural 0xFFFFFFFFFFFFFFFF), ("min", .natural 0), ("color", .natural 0xFFFF), ("term", .string "number")] .closed

/-- The state said the other way round. -/
def startForm : Json :=
  .object [("productions", .array [.array [greatestForm] .closed, .array [] .closed] .closed), ("name", .string "start")] .closed

/-- The definition said shorter and the other way round. -/
def quotedForm : Json :=
  .object [("states", .array [startForm] .closed), ("name", .string quotedDefinition.name)] .closed

/-- A state with an element that has a field of another name. -/
def strayState : Json :=
  .object [("name", .string "start"),
    ("productions", .array [.array [.object [("colour", .natural 1)] .closed] .closed] .closed)] .closed

/-- A definition with that state. -/
def strayForm : Json := .object [("name", .string "a"), ("states", .array [strayState] .closed)] .closed

/-- The definition is read from its text and from the shorter one, and the one that strays is refused. -/
theorem round_trip_quoted :
    quotedDefinition.Fits ∧ quotedDefinition.Form quotedForm ∧ quotedDefinition.toJson.toText ≠ quotedForm.toText ∧
      Definition.ofText quotedDefinition.toJson.toText = .ok quotedDefinition ∧
      Definition.ofText quotedForm.toText = .ok quotedDefinition ∧
      Definition.Strays (Json.ofText strayForm.toText).1 ∧
      ∃ defect, Definition.ofText strayForm.toText = .error (.badDefinition defect) := by
  have hfits : quotedDefinition.Fits := by
    have hnumber : greatestNumber.Fits := by constructor <;> simp [greatestNumber, Definition.greatestColor, unlimited]
    simpa [Definition.Fits, quotedDefinition] using hnumber
  have hnumber : Definition.ElementForm greatestNumber greatestForm := by
    refine ⟨_, [("state", .null), ("value", .null), ("visible", .null), ("word", .bool false)], rfl, ?_, ?_⟩
    · refine (List.perm_ext_iff_of_nodup (by simp) (by simp [Definition.elementJson, Json.fields])).2 fun f => ?_
      simp [Definition.elementJson, Json.fields, greatestNumber, ElementSpec.blank, Definition.optionalJson]
      tauto
    · simp [Definition.elementJson, Json.fields, ElementSpec.blank, Definition.optionalJson]
  have hstart : Definition.StateForm ⟨"start", [[greatestNumber], []]⟩ startForm :=
    ⟨[[greatestForm], []], .cons (.cons hnumber .nil) (.cons .nil .nil), _, [], rfl, List.Perm.swap _ _ _, by simp⟩
  have hform : quotedDefinition.Form quotedForm := by
    refine ⟨[startForm], .cons hstart .nil, _, [("start", .null), ("extensions", .array [] .closed)], rfl, ?_, by simp⟩
    refine (List.perm_ext_iff_of_nodup (by simp) (by simp)).2 fun f => ?_
    simp [quotedDefinition, Definition.optionalJson, Definition.listJson]
    tauto
  have hwhole : strayForm.Whole := by
    have helement : (Json.object [("colour", .natural 1)] .closed).Whole := .object (by simp [Json.Whole.natural])
    have hrow : (Json.array [.object [("colour", .natural 1)] .closed] .closed).Whole := .array (by simpa using helement)
    have hstate : strayState.Whole := .object (by simpa [Json.Whole.string] using .array (by simpa using hrow))
    exact .object (by simp [Json.Whole.string, Json.Whole.array, hstate])
  have hstrays : Definition.Strays (Json.ofText strayForm.toText).1 := by
    rw [hwhole.ofText_toText]
    exact .inr ⟨strayState, .head _, .inr ⟨_, .head _, _, .head _, by decide⟩⟩
  obtain ⟨hread, hrefused⟩ := Definition.round_trip
  obtain ⟨hcanonical, hforms⟩ := hread quotedDefinition hfits
  exact ⟨hfits, hform, by decide +kernel, hcanonical, (hforms quotedForm hform).1, hstrays, hrefused strayForm.toText hstrays⟩

end LiveHighlight
