import LiveHighlight.Json.Reader
import LiveHighlight.Proofs.Json.Scanning

/-!
# What is written is read back

The tokens of a whole value are read as that value (`Json.Whole.readValue_tokens`), so its text is too (`Json.Whole.ofText_toText`).
Two units of fuel for each token are enough.
-/

namespace LiveHighlight

/-- Whether the tokens of a value are read as the value, given fuel for them. -/
def Json.Reads (j : Json) : Prop :=
  ∀ fuel, 2 * j.tokens.length ≤ fuel → ∀ rest, readValue fuel (j.tokens ++ rest) = (j, rest)

namespace PrintAux

/-- A whole value has tokens, and they do not begin with the bracket that ends an array. -/
theorem exists_opening {j : Json} (h : j.Whole) : ∃ t ts, j.tokens = t :: ts ∧ t ≠ .endArray := by
  cases h <;> exact ⟨_, _, rfl, by simp⟩

/-- Items have tokens, and they do not begin with that bracket. -/
theorem exists_opening_items {j : Json} (h : j.Whole) (items : List Json) :
    ∃ t ts, Json.tokensOfItems (j :: items) = t :: ts ∧ t ≠ .endArray := by
  obtain ⟨t, ts, hts, hopens⟩ := exists_opening h
  cases items with
  | nil => exact ⟨t, ts, by rw [Json.tokensOfItems, hts], hopens⟩
  | cons k items => exact ⟨t, _, by rw [Json.tokensOfItems_cons, hts, List.cons_append], hopens⟩

/-- After a comma comes the next item. -/
theorem readItems_comma {fuel : Nat} {tokens : List Token} {j : Json} {t : Token} {ts : List Token}
    (hvalue : Json.readValue fuel tokens = (j, .comma :: t :: ts)) (hopens : t ≠ .endArray) {items : List Json} {ending : Ending}
    {rest : List Token} (hrest : Json.readItems fuel (t :: ts) = (items, ending, rest)) :
    Json.readItems (fuel + 1) tokens = (j :: items, ending, rest) := by
  rw [Json.readItems, hvalue]
  dsimp only
  split
  · next hnil => cases hnil
  · next hend => cases hend
  · next hlast => cases hlast
  · next hend => exact absurd (List.cons.inj (List.cons.inj hend).2).1 hopens
  · next after _ _ hnext =>
    obtain ⟨-, rfl⟩ := List.cons.inj hnext
    simp only [hrest]
  · next hother hnext => exact absurd (List.cons.inj hnext).1.symm hother

/-- Items with commas between them are read up to the closing bracket, if each of them is read. -/
theorem readItems_tokens {items : List Json} (hne : items ≠ []) (hwhole : ∀ j ∈ items, j.Whole) (h : ∀ j ∈ items, j.Reads)
    {fuel : Nat} (hfuel : 2 * (Json.tokensOfItems items).length + 1 ≤ fuel) (rest : List Token) :
    Json.readItems fuel (Json.tokensOfItems items ++ .endArray :: rest) = (items, .closed, rest) := by
  induction items generalizing fuel with
  | nil => exact absurd rfl hne
  | cons j items ih =>
    obtain ⟨fuel, rfl⟩ : ∃ f, fuel = f + 1 := Nat.exists_eq_succ_of_ne_zero (by omega)
    cases items with
    | nil =>
      rw [Json.tokensOfItems] at hfuel ⊢
      rw [Json.readItems, h j (.head _) fuel (by omega)]
    | cons k items =>
      obtain ⟨t, ts, hts, hopens⟩ := exists_opening_items (hwhole k (.tail _ (.head _))) items
      -- the comma pays for the call that reads on
      rw [Json.tokensOfItems_cons, List.length_append, List.length_cons] at hfuel
      have henough : 2 * (Json.tokensOfItems (k :: items)).length + 1 ≤ fuel := by omega
      have hrest := ih (by simp) (fun j hj => hwhole j (.tail _ hj)) (fun j hj => h j (.tail _ hj)) henough
      rw [hts, List.cons_append] at hrest
      rw [Json.tokensOfItems_cons, List.append_assoc, List.cons_append, hts, List.cons_append]
      exact readItems_comma (h j (.head _) fuel (by omega) _) hopens hrest

/-- Fields with commas between them are read up to the closing brace, if the value of each of them is read. -/
theorem readFields_tokens {fields : List (String × Json)} (hne : fields ≠ []) (h : ∀ f ∈ fields, f.2.Reads)
    {fuel : Nat} (hfuel : 2 * (Json.tokensOfFields fields).length + 1 ≤ fuel) (rest : List Token) :
    Json.readFields fuel (Json.tokensOfFields fields ++ .endObject :: rest) = (fields, .closed, rest) := by
  induction fields generalizing fuel with
  | nil => exact absurd rfl hne
  | cons f fields ih =>
    obtain ⟨name, j⟩ := f
    obtain ⟨fuel, rfl⟩ : ∃ f, fuel = f + 1 := Nat.exists_eq_succ_of_ne_zero (by omega)
    have hj : j.Reads := h (name, j) (.head _)
    cases fields with
    | nil =>
      rw [Json.tokensOfFields_singleton] at hfuel ⊢
      simp only [List.length_cons] at hfuel
      simp only [List.cons_append, Json.readFields]
      rw [hj fuel (by omega)]
    | cons g fields =>
      rw [Json.tokensOfFields_cons] at hfuel ⊢
      simp only [List.length_append, List.length_cons] at hfuel
      have henough : 2 * (Json.tokensOfFields (g :: fields)).length + 1 ≤ fuel := by omega
      have hrest := ih (by simp) (fun f hf => h f (.tail _ hf)) henough
      simp only [List.cons_append, List.append_assoc, Json.readFields]
      rw [hj fuel (by omega)]
      simp only [hrest]

/-- A value of one token is read if that token is. -/
theorem reads_atom {j : Json} {t : Token} (htokens : j.tokens = [t])
    (hread : ∀ fuel rest, Json.readValue (fuel + 1) (t :: rest) = (j, rest)) : j.Reads := by
  intro fuel hfuel rest
  rw [htokens, List.length_singleton] at hfuel
  obtain ⟨fuel, rfl⟩ : ∃ f, fuel = f + 1 := Nat.exists_eq_succ_of_ne_zero (by omega)
  rw [htokens]
  exact hread fuel rest

/-- An array is read if its items are. -/
theorem reads_array {items : List Json} (hwhole : ∀ j ∈ items, j.Whole) (h : ∀ j ∈ items, j.Reads) :
    (Json.array items .closed).Reads := by
  intro fuel hfuel rest
  rw [Json.tokens] at hfuel ⊢
  simp only [List.length_append, List.length_cons] at hfuel
  obtain ⟨fuel, rfl⟩ : ∃ f, fuel = f + 1 := Nat.exists_eq_succ_of_ne_zero (by omega)
  cases items with
  | nil => rfl
  | cons j items =>
    obtain ⟨t, ts, hts, hopens⟩ := exists_opening_items (hwhole j (.head _)) items
    have henough : 2 * (Json.tokensOfItems (j :: items)).length + 1 ≤ fuel := by omega
    have hitems := readItems_tokens (by simp) hwhole h henough rest
    simp only [List.cons_append, List.append_assoc, List.nil_append, Json.readValue]
    rw [hts, List.cons_append] at hitems ⊢
    split
    · next hnil => cases hnil
    · next hend => exact absurd (List.cons.inj hend).1 hopens
    · simp only [hitems]

/-- An object is read if the values of its fields are. -/
theorem reads_object {fields : List (String × Json)} (h : ∀ f ∈ fields, f.2.Reads) : (Json.object fields .closed).Reads := by
  intro fuel hfuel rest
  rw [Json.tokens] at hfuel ⊢
  simp only [List.length_append, List.length_cons] at hfuel
  obtain ⟨fuel, rfl⟩ : ∃ f, fuel = f + 1 := Nat.exists_eq_succ_of_ne_zero (by omega)
  cases fields with
  | nil => rfl
  | cons f fields =>
    have henough : 2 * (Json.tokensOfFields (f :: fields)).length + 1 ≤ fuel := by omega
    have hfields := readFields_tokens (by simp) h henough rest
    obtain ⟨ts, hts⟩ : ∃ ts, Json.tokensOfFields (f :: fields) = .string f.1 :: ts := by
      cases fields <;> exact ⟨_, rfl⟩
    simp only [List.cons_append, List.append_assoc, List.nil_append, Json.readValue]
    rw [hts, List.cons_append] at hfields ⊢
    simp only [hfields]

end PrintAux

open PrintAux

/-- The tokens of a whole value are read as the value, and what follows them is left. -/
theorem Json.Whole.readValue_tokens {j : Json} (h : j.Whole) : j.Reads := by
  induction h with
  | null | bool | natural | string => exact reads_atom rfl fun _ _ => rfl
  | array whole ih => exact reads_array whole ih
  | object _ ih => exact reads_object ih

/-- A whole value is read from its text, and nothing is left. -/
theorem Json.Whole.ofText_toText {j : Json} (h : j.Whole) : Json.ofText j.toText = (j, false) := by
  have htokens : Token.ofText j.toText.toList = j.tokens := by
    have hcut := h.ofText_render [] (by simp [EndsNumber])
    have hend : Token.ofText [] = [] := by rw [Token.ofText]; rfl
    rwa [hend, List.append_nil, List.append_nil, ← String.toList_ofList (l := j.render)] at hcut
  have hread := h.readValue_tokens (2 * j.tokens.length + 1) (Nat.le_succ _) []
  rw [List.append_nil] at hread
  simp only [Json.ofText, htokens, hread, List.isEmpty_nil, Bool.not_true]

end LiveHighlight
