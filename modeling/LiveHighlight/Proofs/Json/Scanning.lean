import LiveHighlight.Json.Printer
import LiveHighlight.Json.Token

/-!
# What is written is cut into tokens

The text of a value is cut into the tokens of the value (`Json.Whole.ofText_render`), if the value is whole and what follows the text
cannot go on with a number. Escapes give back the characters that they were written for (`ScanAux.scanString_quote`), and digits the
number (`ScanAux.scan_digits`).
-/

namespace LiveHighlight

namespace Json

mutual

/-- The tokens of a value. -/
def tokens : Json → List Token
  | .null => [.null]
  | .bool b => [.bool b]
  | .natural n => [.natural n]
  | .string s => [.string s]
  | .array items _ => .beginArray :: tokensOfItems items ++ [.endArray]
  | .object fields _ => .beginObject :: tokensOfFields fields ++ [.endObject]
  | .number => []
  | .broken _ => []

/-- The tokens of items, with commas between them. -/
def tokensOfItems : List Json → List Token
  | [] => []
  | [j] => tokens j
  | j :: rest => tokens j ++ .comma :: tokensOfItems rest

/-- The tokens of fields, with commas between them. -/
def tokensOfFields : List (String × Json) → List Token
  | [] => []
  | [(name, j)] => .string name :: .colon :: tokens j
  | (name, j) :: rest => .string name :: .colon :: tokens j ++ .comma :: tokensOfFields rest

end

theorem tokensOfItems_cons (j k : Json) (items : List Json) :
    tokensOfItems (j :: k :: items) = j.tokens ++ .comma :: tokensOfItems (k :: items) := rfl

theorem tokensOfFields_singleton (name : String) (j : Json) :
    tokensOfFields [(name, j)] = .string name :: .colon :: j.tokens := rfl

theorem tokensOfFields_cons (name : String) (j : Json) (f : String × Json) (fields : List (String × Json)) :
    tokensOfFields ((name, j) :: f :: fields) = .string name :: .colon :: j.tokens ++ .comma :: tokensOfFields (f :: fields) := rfl

/-- The values that have a text: nothing of them is broken or missing, and their numbers are natural ones that fit into a word of 64
bits. -/
inductive Whole : Json → Prop
  | null : Whole .null
  | bool (b : Bool) : Whole (.bool b)
  | natural {n : Nat} (fits : n ≤ 0xFFFFFFFFFFFFFFFF) : Whole (.natural n)
  | string (s : String) : Whole (.string s)
  | array {items : List Json} (whole : ∀ j ∈ items, Whole j) : Whole (.array items .closed)
  | object {fields : List (String × Json)} (whole : ∀ f ∈ fields, Whole f.2) : Whole (.object fields .closed)

end Json

/-- Whether a text cannot go on with a number that was written before it. -/
def EndsNumber (text : List Char) : Prop := ∀ c ∈ text.head?, isDigit c = false ∧ c ≠ '.' ∧ c ≠ 'e' ∧ c ≠ 'E'

namespace ScanAux

open Token

/-! ## Strings -/

/-- Four hexadecimal digits of a small number are read back. -/
theorem scanFourHex_hexDigits {n : Nat} (h : n < 0x10000) (rest : List Char) :
    scanFourHex (hexDigits 4 n ++ rest) = .ok (n, rest) := by
  have digit (k : Nat) : hexValue? (Nat.digitChar (k % 16)) = some (k % 16) := hexValue?_digitChar (Nat.mod_lt k (by decide))
  have hvalue : hexNumber? 0 (hexDigits 4 n) = some n := by
    simp only [hexDigits, List.nil_append, List.cons_append, hexNumber?, digit, Option.bind_some]
    congr 1
    omega
  simp only [hexDigits, List.nil_append, List.cons_append] at hvalue ⊢
  simp only [scanFourHex, hvalue]

/-- The letter that escapes a character stands for that character. -/
theorem scanEscape_letter {c letter : Char} (h : Json.escapeLetter? c = some letter) (text : List Char) :
    scanEscape (letter :: text) = .ok (c, text) := by
  obtain ⟨before, after, htable, -⟩ := List.lookup_eq_some_iff.1 h
  have hmem : (c, letter) ∈ before ++ (c, letter) :: after := by simp
  rw [← htable] at hmem
  simp only [List.mem_cons, Prod.mk.injEq, List.not_mem_nil, or_false] at hmem
  rcases hmem with ⟨rfl, rfl⟩ | ⟨rfl, rfl⟩ | ⟨rfl, rfl⟩ | ⟨rfl, rfl⟩ | ⟨rfl, rfl⟩ | ⟨rfl, rfl⟩ | ⟨rfl, rfl⟩ <;> rfl

/-- The code of a control character stands for that character. -/
theorem scanEscape_control {c : Char} (h : c.toNat < 0x20) (text : List Char) :
    scanEscape ('u' :: hexDigits 4 c.toNat ++ text) = .ok (c, text) := by
  have hlow : ¬(0xDC00 ≤ c.toNat ∧ c.toNat ≤ 0xDFFF) := by omega
  have hunit : c.toNat < 0xD800 ∨ 0xDBFF < c.toNat := by omega
  rw [List.cons_append, scanEscape, if_pos rfl, scanUnicode, scanFourHex_hexDigits (by omega)]
  simp only [hlow, hunit, if_true, if_false, Char.ofNat_toNat]

theorem scanString_backslash {c : Char} {text rest : List Char} (h : scanEscape text = .ok (c, rest)) :
    scanString ('\\' :: text) = (scanString rest).map fun scanned => (c :: scanned.1, scanned.2) := by
  rw [scanString]
  split
  · next h' =>
    rw [h] at h'
    cases h'
  · next h' =>
    rw [h] at h'
    obtain ⟨rfl, rfl⟩ := Prod.mk.inj (Except.ok.inj h')
    rfl

/-- A character as it stands in a string is read as that character. -/
theorem scanString_escape (c : Char) (text : List Char) :
    scanString (Json.escape c ++ text) = (scanString text).map fun scanned => (c :: scanned.1, scanned.2) := by
  unfold Json.escape
  split
  · next letter h => exact scanString_backslash (scanEscape_letter h text)
  · next h =>
    split
    · next hcontrol => exact scanString_backslash (scanEscape_control hcontrol text)
    · next hplain =>
      have hquote : c ≠ '"' := by
        rintro rfl
        exact absurd h (by decide)
      have hslash : c ≠ '\\' := by
        rintro rfl
        exact absurd h (by decide)
      rw [List.singleton_append, scanString, if_neg hplain]
      · exact hquote
      · exact hslash

/-- A string in quotes is read as it is, and what follows it is left. -/
theorem scanString_quote (cs rest : List Char) : scanString (cs.flatMap Json.escape ++ '"' :: rest) = .ok (cs, rest) := by
  induction cs with
  | nil => simp [scanString]
  | cons c cs ih => rw [List.flatMap_cons, List.append_assoc, scanString_escape, ih]; rfl

/-! ## Numbers -/

theorem isDigit_of_mem_toDigits {n : Nat} {c : Char} (h : c ∈ Nat.toDigits 10 n) : isDigit c = true :=
  Nat.isDigit_of_mem_toDigits (by decide) (by decide) h

/-- A number is written without a needless zero in front. -/
theorem head?_toDigits {n : Nat} (h : 0 < n) : (Nat.toDigits 10 n).head? ≠ some '0' := by
  induction n using Nat.strongRecOn with
  | ind n ih =>
    by_cases hlt : n < 10
    · rw [Nat.toDigits_of_lt_base hlt]
      have hdigit : ∀ k : Fin 10, 0 < k.val → [Nat.digitChar k].head? ≠ some '0' := by decide
      exact hdigit ⟨n, hlt⟩ h
    · have hfront := ih (n / 10) (by omega) (by omega)
      obtain ⟨c, cs, hcs⟩ := List.exists_cons_of_ne_nil (Nat.toDigits_ne_nil (n := n / 10) (b := 10))
      rw [Nat.toDigits_of_base_le (by decide) (by omega), hcs]
      rwa [hcs] at hfront

theorem scanDigits_toDigits (n : Nat) {rest : List Char} (hrest : EndsNumber rest) :
    scanDigits (Nat.toDigits 10 n ++ rest) = .ok (Nat.toDigits 10 n, rest) := by
  have hdigits : ∀ c ∈ Nat.toDigits 10 n, isDigit c = true := fun c hc => isDigit_of_mem_toDigits hc
  have hstop : rest.takeWhile isDigit = [] ∧ rest.dropWhile isDigit = rest := by
    cases rest with
    | nil => exact ⟨rfl, rfl⟩
    | cons c rest =>
      have hc := (hrest c rfl).1
      simp [hc]
  have htake : (Nat.toDigits 10 n ++ rest).takeWhile isDigit = Nat.toDigits 10 n := by
    rw [List.takeWhile_append_of_pos hdigits, hstop.1, List.append_nil]
  have hdrop : (Nat.toDigits 10 n ++ rest).dropWhile isDigit = rest := by
    rw [List.dropWhile_append_of_pos hdigits, hstop.2]
  obtain ⟨c, cs, hcs⟩ := List.exists_cons_of_ne_nil (Nat.toDigits_ne_nil (n := n) (b := 10))
  rw [hcs] at hdigits htake hdrop ⊢
  rw [List.cons_append] at htake hdrop ⊢
  simp only [scanDigits, hdigits c (.head _), if_true, htake, hdrop]

theorem scanWhole_toDigits (n : Nat) {rest : List Char} (hrest : EndsNumber rest) :
    scanWhole (Nat.toDigits 10 n ++ rest) = .ok (Nat.toDigits 10 n, rest) := by
  rw [scanWhole, scanDigits_toDigits n hrest]
  split
  · next c cs after h =>
    obtain ⟨hdigits, -⟩ := Prod.mk.inj (Except.ok.inj h)
    rcases Nat.eq_zero_or_pos n with rfl | hpos
    · cases hdigits
    · -- a zero in front of other digits is not written
      have hhead := head?_toDigits hpos
      rw [hdigits] at hhead
      exact absurd rfl hhead
  · rfl

theorem digitsValue_toDigits (n : Nat) : digitsValue 0 (Nat.toDigits 10 n) = n := by
  have hvalue := Nat.ofDigitChars_ten_toDigits (n := n)
  simpa only [digitsValue, Nat.ofDigitChars_eq_foldl, Nat.mul_comm 10] using hvalue

/-- A number that fits into a word is not too big for a double. -/
theorem ofNumber_toDigits {n : Nat} (h : n ≤ 0xFFFFFFFFFFFFFFFF) : ofNumber false (Nat.toDigits 10 n) none none = .natural n := by
  have hlimit : 0xFFFFFFFFFFFFFFFF < Nat.pow 2 1024 - Nat.pow 2 970 := by decide +kernel
  have hsmall : overflows n 0 0 = false := by
    unfold overflows
    generalize Nat.pow 2 1024 - Nat.pow 2 970 = limit at hlimit ⊢
    split
    · rfl
    · simp
      omega
  have hsignificand : digitsValue (digitsValue 0 (Nat.toDigits 10 n)) (Option.getD none []) = n := digitsValue_toDigits n
  simp only [ofNumber, hsignificand]
  simp [hsmall, h]

theorem scanUnsigned_toDigits {n : Nat} (h : n ≤ 0xFFFFFFFFFFFFFFFF) {rest : List Char} (hrest : EndsNumber rest) :
    scanUnsigned false (Nat.toDigits 10 n ++ rest) = .ok (.natural n, rest) := by
  have hfraction : scanFraction rest = .ok (none, rest) := by
    unfold scanFraction
    split
    · next rest => exact absurd rfl (hrest '.' rfl).2.1
    · rfl
  have hexponent : scanExponent rest = .ok (none, rest) := by
    unfold scanExponent
    split
    · next c rest =>
      obtain ⟨-, -, he, hE⟩ := hrest c rfl
      simp [he, hE]
    · rfl
  simp only [scanUnsigned, scanWhole_toDigits n hrest, hfraction, hexponent, ofNumber_toDigits h]

/-- The digits of a number are one token. -/
theorem scan_toDigits {n : Nat} (h : n ≤ 0xFFFFFFFFFFFFFFFF) {rest : List Char} (hrest : EndsNumber rest) :
    ∃ c text, Nat.toDigits 10 n ++ rest = c :: text ∧ isGap c = false ∧ scan c text = (.natural n, rest) := by
  obtain ⟨c, cs, hcs⟩ := List.exists_cons_of_ne_nil (Nat.toDigits_ne_nil (n := n) (b := 10))
  have hdigit : isDigit c = true := isDigit_of_mem_toDigits (n := n) (by simp [hcs])
  have hunsigned := scanUnsigned_toDigits h hrest
  have other (x : Char) (hx : isDigit x = false) : c ≠ x := by
    rintro rfl
    rw [hdigit] at hx
    cases hx
  rw [hcs, List.cons_append] at hunsigned ⊢
  refine ⟨c, cs ++ rest, rfl, ?_, ?_⟩
  · simp [isGap, other ' ' rfl, other '\n' rfl, other '\t' rfl, other '\r' rfl]
  · have hpunctuation : punctuation? c = none := by
      have hmarks : ∀ mark ∈ [('[', beginArray), (']', .endArray), ('\x7b', .beginObject), ('\x7d', .endObject), (',', .comma),
          (':', .colon)], isDigit mark.1 = false := by decide
      exact List.lookup_eq_none_iff.2 fun mark hmark => bne_iff_ne.2 (other mark.1 (hmarks mark hmark))
    simp [scan, hpunctuation, scanScalar, hdigit, hunsigned, other '"' rfl, other 'n' rfl, other 't' rfl, other 'f' rfl,
      other '-' rfl]

/-! ## Values -/

theorem ofText_cons {c : Char} {text rest : List Char} {token : Token} (hgap : isGap c = false)
    (h : scan c text = (token, rest)) : Token.ofText (c :: text) = token :: Token.ofText rest := by
  rw [Token.ofText]
  have hdrop : (c :: text).dropWhile isGap = c :: text := by simp [hgap]
  split
  · next hnil =>
    rw [hdrop] at hnil
    cases hnil
  · next c' text' hcons =>
    rw [hdrop] at hcons
    obtain ⟨rfl, rfl⟩ := List.cons.inj hcons
    rw [h]

theorem ofText_mark (c : Char) (token : Token) (hgap : isGap c = false) (h : punctuation? c = some token) (rest : List Char) :
    Token.ofText (c :: rest) = token :: Token.ofText rest :=
  ofText_cons hgap (by rw [scan, h])

/-- A mark of its own cannot go on with a number. -/
theorem endsNumber_cons {c : Char} (h : isDigit c = false ∧ c ≠ '.' ∧ c ≠ 'e' ∧ c ≠ 'E') (rest : List Char) :
    EndsNumber (c :: rest) := by
  intro x hx
  obtain rfl := Option.some.inj hx
  exact h

theorem ofText_quote (s : String) (rest : List Char) :
    Token.ofText (Json.quote s ++ rest) = .string s :: Token.ofText rest := by
  have hpunctuation : punctuation? '"' = none := rfl
  have hscan : scan '"' (s.toList.flatMap Json.escape ++ '"' :: rest) = (.string s, rest) := by
    simp only [scan, hpunctuation, if_true, scanString_quote, String.ofList_toList]
  rw [Json.quote, List.cons_append, List.cons_append, List.append_assoc, List.singleton_append, ofText_cons rfl hscan]

/-- The texts of items, with commas between them, are cut into the tokens of the items, if the text of each item is. -/
theorem ofText_renderItems {items : List Json}
    (h : ∀ j ∈ items, ∀ rest, EndsNumber rest → Token.ofText (j.render ++ rest) = j.tokens ++ Token.ofText rest)
    {rest : List Char} (hrest : EndsNumber rest) :
    Token.ofText (Json.renderItems items ++ rest) = Json.tokensOfItems items ++ Token.ofText rest := by
  induction items with
  | nil => rfl
  | cons j items ih =>
    cases items with
    | nil =>
      simp only [Json.renderItems, Json.tokensOfItems]
      exact h j (.head _) rest hrest
    | cons k items =>
      have htail := ih fun j hj => h j (.tail _ hj)
      simp only [Json.renderItems, Json.tokensOfItems, List.append_assoc, List.cons_append]
      rw [h j (.head _) _ (endsNumber_cons (by decide) _), ofText_mark ',' .comma rfl rfl, htail]

/-- The texts of fields, with commas between them, are cut into the tokens of the fields, if the text of each value is. -/
theorem ofText_renderFields {fields : List (String × Json)}
    (h : ∀ f ∈ fields, ∀ rest, EndsNumber rest → Token.ofText (f.2.render ++ rest) = f.2.tokens ++ Token.ofText rest)
    {rest : List Char} (hrest : EndsNumber rest) :
    Token.ofText (Json.renderFields fields ++ rest) = Json.tokensOfFields fields ++ Token.ofText rest := by
  induction fields with
  | nil => rfl
  | cons f fields ih =>
    obtain ⟨name, j⟩ := f
    have hname (text : List Char) : Token.ofText (Json.quote name ++ ':' :: text) = .string name :: .colon :: Token.ofText text := by
      rw [ofText_quote, ofText_mark ':' .colon rfl rfl]
    cases fields with
    | nil =>
      simp only [Json.renderFields, Json.tokensOfFields, List.append_assoc, List.cons_append]
      rw [hname, h (name, j) (.head _) rest hrest]
    | cons g fields =>
      have htail := ih fun f hf => h f (.tail _ hf)
      simp only [Json.renderFields, Json.tokensOfFields, List.append_assoc, List.cons_append]
      rw [hname, h (name, j) (.head _) _ (endsNumber_cons (by decide) _), ofText_mark ',' .comma rfl rfl, htail]

end ScanAux

open ScanAux

/-- The text of a whole value is cut into the tokens of the value, and what follows it into its own. -/
theorem Json.Whole.ofText_render {j : Json} (h : j.Whole) (rest : List Char) (hrest : EndsNumber rest) :
    Token.ofText (j.render ++ rest) = j.tokens ++ Token.ofText rest := by
  induction h generalizing rest with
  | null => exact ofText_cons rfl rfl
  | bool b => cases b <;> exact ofText_cons rfl rfl
  | natural fits =>
    obtain ⟨c, text, htext, hgap, hscan⟩ := scan_toDigits fits hrest
    rw [Json.render, htext]
    exact ofText_cons hgap hscan
  | string s => exact ofText_quote s rest
  | array _ ih =>
    simp only [Json.render, Json.tokens, List.cons_append, List.append_assoc, List.nil_append]
    rw [ofText_mark '[' .beginArray rfl rfl, ofText_renderItems ih (endsNumber_cons (by decide) rest),
      ofText_mark ']' .endArray rfl rfl]
  | object _ ih =>
    simp only [Json.render, Json.tokens, List.cons_append, List.append_assoc, List.nil_append]
    rw [ofText_mark '\x7b' .beginObject rfl rfl, ofText_renderFields ih (endsNumber_cons (by decide) rest),
      ofText_mark '\x7d' .endObject rfl rfl]

end LiveHighlight
