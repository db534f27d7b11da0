import LiveHighlight.Json.Decode
import LiveHighlight.Proofs.Grammar.Resolution

/-!
# What records are decoded from

A record is decoded from an object with its fields in any order, from which those may be left out that hold what the record has
without them (`Decoder.record_of_abridges`). What is decoded as a record has no other fields, and what stands in its fields is
decoded too, whether it is written as an object or as an array (`Decoder.accepts_of_record`).
-/

namespace LiveHighlight

namespace Json

/-- The fields of an object. -/
def fields : Json → List (String × Json)
  | .object fields _ => fields
  | _ => []

/-- The items of an array. -/
def items : Json → List Json
  | .array items _ => items
  | _ => []

/-- Whether a value is an object with a field of none of the given names. -/
def Strays (names : List String) (j : Json) : Prop := ∃ f ∈ j.fields, f.1 ∉ names

/-- Whether an object has all the fields of another one, in any order, but for some of those in `spare`. -/
def Abridges (spare full : List (String × Json)) (j : Json) : Prop :=
  ∃ found left, j = .object found .closed ∧ (found ++ left).Perm full ∧ ∀ f ∈ left, f ∈ spare

theorem abridges_refl (spare full : List (String × Json)) : (Json.object full .closed).Abridges spare full :=
  ⟨full, [], rfl, by simp, by simp⟩

end Json

namespace Decoder

variable {α ρ : Type}

/-- What stands in the field of a name, for each place where it does: in an object under the name, in an array at the field's place. -/
def valuesOf (fields : List (RecordField ρ)) (name : String) : Json → List Json
  | .object found _ => (found.filter (·.1 = name)).map (·.2)
  | .array items _ => ((fields.zip items).filter (·.1.name = name)).map (·.2)
  | _ => []

/-! ## Lists -/

/-- An array is decoded item by item. -/
theorem list_of_forall₂ {decode : Decoder α} {items : List Json} {things : List α}
    (h : List.Forall₂ (fun j a => decode j = .ok a) items things) : list decode (.array items .closed) = .ok things := by
  simp only [list, BuildAux.mapM_eq_ok_iff.2 h]

/-- The items of what is decoded as a list are decoded. -/
theorem accepts_of_list {decode : Decoder α} {j : Json} {things : List α} (h : list decode j = .ok things) :
    ∀ item ∈ j.items, ∃ a, decode item = .ok a := by
  cases j with
  | array items ending =>
    intro item hitem
    simp only [list] at h
    split at h
    · cases h
    · next hmap =>
      obtain ⟨a, -, ha⟩ := BuildAux.exists_right (BuildAux.mapM_eq_ok_iff.1 hmap) hitem
      exact ⟨a, ha⟩
  | _ => simp [Json.items]

/-! ## Records that are decoded -/

/-- Whether a value is one that a field takes. -/
def RecordField.Takes (field : RecordField ρ) (j : Json) : Prop := ∃ r r', field.decode j r = .ok r'

theorem RecordField.Takes.exists_eq {name : String} {required : Bool} {decode : Decoder α} {set : ρ → α → ρ} {j : Json}
    (h : (RecordField.of name required decode set).Takes j) : ∃ a, decode j = .ok a := by
  obtain ⟨r, r', hr⟩ := h
  obtain ⟨a, ha, -⟩ := BuildAux.map_eq_ok_iff.1 hr
  exact ⟨a, ha⟩

/-- The fields of an object that is decoded are known, and take what stands in them. -/
theorem takes_of_objectFields {fields : List (RecordField ρ)} {found : List (String × Json)} {seen : List String} {r : ρ}
    {out : List String × ρ} (h : objectFields fields seen r found = .ok out) :
    ∀ f ∈ found, ∃ field ∈ fields, field.name = f.1 ∧ field.Takes f.2 := by
  induction found generalizing seen r with
  | nil => simp
  | cons g found ih =>
    obtain ⟨name, j⟩ := g
    rw [objectFields] at h
    split at h
    · cases h
    · next field hfield =>
      split at h
      · cases h
      · split at h
        · cases h
        · next r' hr' =>
          have hname : field.name = name := by simpa using List.find?_some hfield
          intro f hf
          rcases List.mem_cons.1 hf with rfl | hf
          · exact ⟨field, List.mem_of_find?_eq_some hfield, hname, r, r', hr'⟩
          · exact ih h f hf

/-- Each of the items that are decoded as a record is taken by the field at its place. -/
theorem takes_of_arrayFields {fields : List (RecordField ρ)} {items : List Json} {ending : Ending} {r r' : ρ}
    (h : arrayFields fields r items ending = .ok r') : ∀ p ∈ fields.zip items, p.1.Takes p.2 := by
  induction items generalizing fields r with
  | nil => simp
  | cons j items ih =>
    cases fields with
    | nil => simp
    | cons field fields =>
      rw [arrayFields] at h
      split at h
      · cases h
      · next r'' hr'' =>
        intro p hp
        rw [List.zip_cons_cons] at hp
        rcases List.mem_cons.1 hp with rfl | hp
        · exact ⟨r, r'', hr''⟩
        · exact ih h p hp

/-- What is decoded as a record has no unknown fields, and what stands in its fields is taken by them. -/
theorem accepts_of_record {fields : List (RecordField ρ)} {blank r : ρ} {j : Json} (h : record fields blank j = .ok r) :
    ¬j.Strays (fields.map (·.name)) ∧
      ∀ name, ∀ v ∈ valuesOf fields name j, ∃ field ∈ fields, field.name = name ∧ field.Takes v := by
  cases j with
  | object found ending =>
    simp only [record] at h
    split at h
    · cases h
    · next hfound =>
      have htakes := takes_of_objectFields hfound
      constructor
      · rintro ⟨f, hf, hname⟩
        obtain ⟨field, hfield, heq, -⟩ := htakes f hf
        exact hname (List.mem_map.2 ⟨field, hfield, heq⟩)
      · intro name v hv
        obtain ⟨f, hf, rfl⟩ := List.mem_map.1 hv
        obtain ⟨hmem, hname⟩ := List.mem_filter.1 hf
        obtain ⟨field, hfield, heq, htaken⟩ := htakes f hmem
        exact ⟨field, hfield, heq.trans (of_decide_eq_true hname), htaken⟩
  | array items ending =>
    have htakes := takes_of_arrayFields h
    refine ⟨by simp [Json.Strays, Json.fields], ?_⟩
    intro name v hv
    obtain ⟨p, hp, rfl⟩ := List.mem_map.1 hv
    obtain ⟨hmem, hname⟩ := List.mem_filter.1 hp
    exact ⟨p.1, (List.of_mem_zip hmem).1, of_decide_eq_true hname, htakes p hmem⟩
  | _ => exact ⟨by simp [Json.Strays, Json.fields], by simp [valuesOf]⟩

/-- What stands in a field for lists of what is decoded as a record has items that are decoded. -/
theorem accepts_items {fields : List (RecordField ρ)} {blank r : ρ} {j : Json} (h : record fields blank j = .ok r)
    (hdistinct : (fields.map (·.name)).Nodup) (i : Nat) {name : String} {required : Bool} {decode : Decoder α}
    {set : ρ → List α → ρ} (hfield : fields[i]? = some (.of name required (list decode) set)) :
    ∀ v ∈ valuesOf fields name j, ∀ item ∈ v.items, ∃ a, decode item = .ok a := by
  intro v hv
  obtain ⟨field, hmem, hname, htaken⟩ := (accepts_of_record h).2 name v hv
  rw [List.inj_on_of_nodup_map hdistinct hmem (List.mem_of_getElem? hfield) hname] at htaken
  obtain ⟨things, hthings⟩ := htaken.exists_eq
  exact accepts_of_list hthings

/-! ## Records that are written in part -/

/-- Of fields of different names, the one of a name is found. -/
theorem find?_of_mem {fields : List (RecordField ρ)} (hdistinct : (fields.map (·.name)).Nodup) {field : RecordField ρ}
    (hfield : field ∈ fields) : fields.find? (·.name = field.name) = some field := by
  cases hfound : fields.find? (·.name = field.name) with
  | none =>
    have hother := List.find?_eq_none.1 hfound field hfield
    simp at hother
  | some found =>
    have hname : found.name = field.name := by simpa using List.find?_some hfound
    rw [List.inj_on_of_nodup_map hdistinct (List.mem_of_find?_eq_some hfound) hfield hname]

section

variable {fields : List (RecordField ρ)} {known : List String → ρ}

/-- Whether fields are read into a record of which some fields are known so that one more is: `known` is the record of which those
of the given names are. -/
def Adds (fields : List (RecordField ρ)) (known : List String → ρ) (f : String × Json) : Prop :=
  ∀ seen, ∃ field ∈ fields, field.name = f.1 ∧ field.decode f.2 (known seen) = .ok (known (f.1 :: seen))

/-- After the fields of an object have been read, those fields are known. The induction is on the fields that are left, with the record
of which the fields seen so far are known. -/
theorem objectFields_of_adds (hdistinct : (fields.map (·.name)).Nodup) {found : List (String × Json)}
    (hfound : (found.map (·.1)).Nodup) (h : ∀ f ∈ found, Adds fields known f) (seen : List String)
    (hseen : ∀ f ∈ found, f.1 ∉ seen) :
    ∃ names, objectFields fields seen (known seen) found = .ok (names, known names) ∧ (∀ f ∈ found, f.1 ∈ names) ∧
      ∀ name ∈ seen, name ∈ names := by
  induction found generalizing seen with
  | nil => exact ⟨seen, rfl, by simp, fun _ hname => hname⟩
  | cons f found ih =>
    obtain ⟨name, j⟩ := f
    obtain ⟨hfresh, hrest⟩ := List.nodup_cons.1 hfound
    obtain ⟨field, hfield, rfl, hdecode⟩ := h (name, j) (.head _) seen
    have hnew : ∀ f ∈ found, f.1 ∉ field.name :: seen := by
      intro f hf hmem
      rcases List.mem_cons.1 hmem with heq | hmem
      · exact hfresh (List.mem_map.2 ⟨f, hf, heq⟩)
      · exact hseen f (.tail _ hf) hmem
    obtain ⟨names, hread, hnames, hkept⟩ := ih hrest (fun f hf => h f (.tail _ hf)) (field.name :: seen) hnew
    refine ⟨names, ?_, ?_, fun name hname => hkept name (.tail _ hname)⟩
    · have hunseen : field.name ∉ seen := hseen (field.name, j) (.head _)
      simp only [objectFields, find?_of_mem hdistinct hfield, hunseen, if_false, hdecode, hread]
    · intro f hf
      rcases List.mem_cons.1 hf with rfl | hf
      · exact hkept _ (.head _)
      · exact hnames f hf

/-- A record is decoded from an object with its fields in any order, some of which may be left out: they are not required, and the
record is known without them. -/
theorem record_of_abridges (known : List String → ρ) {spare full : List (String × Json)} {j : Json} {r : ρ} (hj : j.Abridges spare full)
    (hnames : full.map (·.1) = fields.map (·.name)) (hdistinct : (fields.map (·.name)).Nodup)
    (hadds : ∀ f ∈ full, Adds fields known f)
    (hspare : ∀ field ∈ fields, field.required = true → ∀ f ∈ spare, f.1 ≠ field.name)
    (hknown : ∀ names, (∀ f ∈ full, f.1 ∈ names ∨ f ∈ spare) → known names = r) :
    record fields (known []) j = .ok r := by
  obtain ⟨found, left, rfl, hperm, hleft⟩ := hj
  have hfull : (full.map (·.1)).Nodup := hnames ▸ hdistinct
  have hfound : (found.map (·.1)).Nodup := by
    have hboth := (hperm.map (·.1)).nodup_iff.2 hfull
    rw [List.map_append] at hboth
    exact hboth.of_append_left
  obtain ⟨names, hread, hall, -⟩ := objectFields_of_adds hdistinct hfound
    (fun f hf => hadds f (hperm.mem_iff.1 (List.mem_append_left _ hf))) [] (by simp)
  have hcases : ∀ f ∈ full, f.1 ∈ names ∨ f ∈ spare := by
    intro f hf
    rcases List.mem_append.1 (hperm.mem_iff.2 hf) with hf | hf
    · exact .inl (hall f hf)
    · exact .inr (hleft f hf)
  have hrequired : (fields.all fun f => !f.required || names.contains f.name) = true := by
    rw [List.all_eq_true]
    intro field hfield
    have hwritten : field.name ∈ full.map (·.1) := hnames ▸ List.mem_map_of_mem hfield
    obtain ⟨f, hf, hname⟩ := List.mem_map.1 hwritten
    cases hreq : field.required with
    | false => rfl
    | true =>
      rcases hcases f hf with hmem | hmem
      · simpa [← hname] using hmem
      · exact absurd hname (hspare field hfield hreq f hmem)
  simp only [record, hread, hrequired, if_true, hknown names hcases]

end

end Decoder

end LiveHighlight
