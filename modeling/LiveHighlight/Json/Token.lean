import LiveHighlight.Json.Basic
import LiveHighlight.Text.CharClass
import LiveHighlight.Text.Hex

/-!
# JSON tokens

Cuts a text into JSON tokens. A token that cannot be read is bad; it remembers whether it began as a string and what is
wrong with it, and nothing after it is read.
-/

namespace LiveHighlight

/-- A token of JSON text. -/
inductive Token where
  | beginArray | endArray | beginObject | endObject | comma | colon
  | null
  | bool (b : Bool)
  | natural (n : Nat)
  | number
  | string (s : String)
  | bad (inString : Bool) (defect : TextDefect)
  deriving DecidableEq, Repr, Inhabited

namespace Token

/-- White space between tokens. -/
def isGap (c : Char) : Bool := c == ' ' || c == '\n' || c == '\t' || c == '\r'

/-- A piece of the text that was read, and what follows it. -/
abbrev Scan (α : Type) : Type := Except TextDefect (α × List Char)

/-! ## Strings -/

/-- Four hexadecimal digits. The text is cut short when fewer than four bytes are left. -/
def scanFourHex : List Char → Scan Nat
  | a :: b :: c :: d :: rest =>
    match hexNumber? 0 [a, b, c, d] with
    | some unit => .ok (unit, rest)
    | none => .error .malformed
  | short => .error (if (String.ofList short).utf8ByteSize < 4 then .truncated else .malformed)

/-- The second half of a surrogate pair whose first half is `high`: another escape must follow at once. -/
def scanLowSurrogate (high : Nat) : List Char → Scan Char
  | [] => .error .truncated
  | c :: rest =>
    if c ≠ '\\' then .error .malformed
    else match rest with
      | [] => .error .truncated
      | c :: rest =>
        if c ≠ 'u' then .error .malformed
        else match scanFourHex rest with
          | .error defect => .error defect
          | .ok (low, rest) =>
            if low < 0xDC00 ∨ 0xDFFF < low then .error .malformed
            else .ok (Char.ofNat ((high - 0xD800) * 0x400 + (low - 0xDC00) + 0x10000), rest)

/-- What follows the mark of a Unicode escape: a code unit, or a pair of surrogates that together give a character. -/
def scanUnicode (text : List Char) : Scan Char :=
  match scanFourHex text with
  | .error defect => .error defect
  | .ok (unit, rest) =>
    if 0xDC00 ≤ unit ∧ unit ≤ 0xDFFF then .error .malformed
    else if unit < 0xD800 ∨ 0xDBFF < unit then .ok (Char.ofNat unit, rest)
    else scanLowSurrogate unit rest

/-- The character that an escape of one letter stands for. -/
def shortEscape? (c : Char) : Option Char :=
  [('"', '"'), ('\\', '\\'), ('/', '/'), ('b', '\x08'), ('f', '\x0C'), ('n', '\n'), ('r', '\r'), ('t', '\t')].lookup c

/-- What follows the backslash of an escape. -/
def scanEscape : List Char → Scan Char
  | [] => .error .truncated
  | c :: rest =>
    if c = 'u' then scanUnicode rest
    else match shortEscape? c with
      | some meant => .ok (meant, rest)
      | none => .error .malformed

theorem length_scanFourHex {text rest : List Char} {n : Nat} (h : scanFourHex text = .ok (n, rest)) :
    rest.length < text.length := by
  unfold scanFourHex at h
  split at h
  · split at h
    · cases h; simp; omega
    · cases h
  · cases h

theorem length_scanLowSurrogate {high : Nat} {text rest : List Char} {c : Char}
    (h : scanLowSurrogate high text = .ok (c, rest)) : rest.length < text.length := by
  unfold scanLowSurrogate at h
  split at h
  · cases h
  · split at h
    · cases h
    · split at h
      · cases h
      · split at h
        · cases h
        · split at h
          · cases h
          · next hl =>
            have := length_scanFourHex hl
            split at h
            · cases h
            · simp only [Except.ok.injEq, Prod.mk.injEq] at h
              rw [← h.2]
              simp only [List.length_cons]
              omega

theorem length_scanUnicode {text rest : List Char} {c : Char} (h : scanUnicode text = .ok (c, rest)) :
    rest.length < text.length := by
  unfold scanUnicode at h
  split at h
  · cases h
  · next hu =>
    have := length_scanFourHex hu
    split at h
    · cases h
    · split at h
      · cases h; exact this
      · have := length_scanLowSurrogate h; omega

theorem length_scanEscape {text rest : List Char} {c : Char} (h : scanEscape text = .ok (c, rest)) :
    rest.length < text.length := by
  unfold scanEscape at h
  split at h
  · cases h
  · split at h
    · have := length_scanUnicode h; simp only [List.length_cons]; omega
    · split at h
      · cases h; simp
      · cases h

/-- The rest of a string after its opening quote. Control characters must be escaped. -/
def scanString (text : List Char) : Scan (List Char) :=
  match text with
  | [] => .error .truncated
  | '"' :: rest => .ok ([], rest)
  | '\\' :: rest =>
    match _h : scanEscape rest with
    | .error defect => .error defect
    | .ok (c, rest) => (scanString rest).map fun scanned => (c :: scanned.1, scanned.2)
  | c :: rest =>
    if c.toNat < 0x20 then .error .malformed
    else (scanString rest).map fun scanned => (c :: scanned.1, scanned.2)
termination_by text.length
decreasing_by
  · have := length_scanEscape _h; simp only [List.length_cons]; omega
  · simp

/-! ## Numbers -/

/-- The value of a sequence of decimal digits behind a value. -/
def digitsValue (value : Nat) (digits : List Char) : Nat :=
  digits.foldl (fun n c => n * 10 + (c.toNat - '0'.toNat)) value

/-- Digits, of which there must be at least one. -/
def scanDigits (text : List Char) : Scan (List Char) :=
  match text with
  | [] => .error .truncated
  | c :: _ => if isDigit c then .ok (text.takeWhile isDigit, text.dropWhile isDigit) else .error .malformed

/-- The whole part of a number: digits without a needless zero in front. -/
def scanWhole (text : List Char) : Scan (List Char) :=
  match scanDigits text with
  | .ok ('0' :: _ :: _, _) => .error .malformed
  | scanned => scanned

/-- The digits after a decimal point, if there is one. -/
def scanFraction (text : List Char) : Scan (Option (List Char)) :=
  match text with
  | '.' :: rest =>
    match scanDigits rest with
    | .error defect => .error defect
    | .ok (digits, rest) => .ok (some digits, rest)
  | _ => .ok (none, text)

/-- The sign of an exponent, and what follows it. -/
def scanSign : List Char → Bool × List Char
  | '-' :: rest => (true, rest)
  | '+' :: rest => (false, rest)
  | text => (false, text)

/-- The exponent, if there is one: its sign and digits. -/
def scanExponent (text : List Char) : Scan (Option (Bool × List Char)) :=
  match text with
  | c :: rest =>
    if c = 'e' ∨ c = 'E' then
      match scanDigits (scanSign rest).2 with
      | .error defect => .error defect
      | .ok (digits, after) => .ok (some ((scanSign rest).1, digits), after)
    else .ok (none, text)
  | [] => .ok (none, text)

/-- Whether the decimal number `significand * 10 ^ (exponent - places)` rounds to no finite double: it is at least the
largest one and half a step. -/
def overflows (significand exponent places : Nat) : Bool :=
  let limit := Nat.pow 2 1024 - Nat.pow 2 970
  if significand = 0 then false
  else if places ≤ exponent then
    if 310 < exponent - places then true else limit ≤ significand * Nat.pow 10 (exponent - places)
  else limit * Nat.pow 10 (places - exponent) ≤ significand

/-- The token of a number that was scanned. -/
def ofNumber (negative : Bool) (whole : List Char) (fraction : Option (List Char)) (exponent : Option (Bool × List Char)) :
    Token :=
  let places := (fraction.getD []).length
  let significand := digitsValue (digitsValue 0 whole) (fraction.getD [])
  let tooBig := match exponent with
    | some (true, _) => false
    | some (false, digits) => overflows significand (digitsValue 0 digits) places
    | none => overflows significand 0 places
  if tooBig then .bad false .malformed
  else if negative = false ∧ fraction = none ∧ exponent = none ∧ significand ≤ 0xFFFFFFFFFFFFFFFF then
    .natural significand
  else .number

/-- A number without its sign. -/
def scanUnsigned (negative : Bool) (text : List Char) : Scan Token :=
  match scanWhole text with
  | .error defect => .error defect
  | .ok (whole, rest) =>
    match scanFraction rest with
    | .error defect => .error defect
    | .ok (fraction, rest) =>
      match scanExponent rest with
      | .error defect => .error defect
      | .ok (exponent, rest) => .ok (ofNumber negative whole fraction exponent, rest)

theorem length_scanDigits {text digits rest : List Char} (h : scanDigits text = .ok (digits, rest)) :
    rest.length < text.length := by
  unfold scanDigits at h
  split at h
  · cases h
  · next c tail =>
    split at h
    · next hc =>
      cases h
      have := (List.dropWhile_sublist isDigit (l := tail)).length_le
      simp only [List.dropWhile_cons, hc, if_true, List.length_cons]
      omega
    · cases h

theorem length_scanWhole {text digits rest : List Char} (h : scanWhole text = .ok (digits, rest)) :
    rest.length < text.length := by
  unfold scanWhole at h
  split at h
  · cases h
  · exact length_scanDigits h

theorem length_scanFraction {text rest : List Char} {fraction : Option (List Char)}
    (h : scanFraction text = .ok (fraction, rest)) : rest.length ≤ text.length := by
  unfold scanFraction at h
  split at h
  · split at h
    · cases h
    · next hd => cases h; have := length_scanDigits hd; simp only [List.length_cons]; omega
  · cases h; exact Nat.le_refl _

theorem length_scanSign (text : List Char) : (scanSign text).2.length ≤ text.length := by
  unfold scanSign
  split <;> simp

theorem length_scanExponent {text rest : List Char} {exponent : Option (Bool × List Char)}
    (h : scanExponent text = .ok (exponent, rest)) : rest.length ≤ text.length := by
  unfold scanExponent at h
  split at h
  · next c tail =>
    split at h
    · split at h
      · cases h
      · next hd =>
        cases h
        have := length_scanDigits hd
        have := length_scanSign tail
        simp only [List.length_cons]
        omega
    · cases h; exact Nat.le_refl _
  · cases h; exact Nat.le_refl _

theorem length_scanUnsigned {negative : Bool} {text rest : List Char} {t : Token}
    (h : scanUnsigned negative text = .ok (t, rest)) : rest.length < text.length := by
  unfold scanUnsigned at h
  split at h
  · cases h
  · next hw =>
    have := length_scanWhole hw
    split at h
    · cases h
    · next hf =>
      have := length_scanFraction hf
      split at h
      · cases h
      · next he => cases h; have := length_scanExponent he; omega

/-! ## Words and the whole text -/

/-- The rest of a word of which the first letter was read. -/
def scanWord : (letters : List Char) → List Char → Except TextDefect (List Char)
  | [], text => .ok text
  | _ :: _, [] => .error .truncated
  | letter :: letters, c :: rest => if c = letter then scanWord letters rest else .error .malformed

theorem length_scanWord {letters text rest : List Char} (h : scanWord letters text = .ok rest) :
    rest.length ≤ text.length := by
  induction letters generalizing text with
  | nil => cases h; exact Nat.le_refl _
  | cons letter letters ih =>
    cases text with
    | nil => cases h
    | cons c tail =>
      simp only [scanWord] at h
      split at h
      · have := ih h; simp only [List.length_cons]; omega
      · cases h

theorem length_map_cons {after rest scanned : List Char} {c : Char}
    (ih : ∀ {scanned : List Char}, scanString after = .ok (scanned, rest) → rest.length < after.length)
    (h : (scanString after).map (fun scanned => (c :: scanned.1, scanned.2)) = .ok (scanned, rest)) :
    rest.length < after.length := by
  cases hs : scanString after with
  | error d => simp [hs, Except.map] at h
  | ok pair =>
    simp only [hs, Except.map, Except.ok.injEq, Prod.mk.injEq] at h
    exact @ih pair.1 (by rw [hs, ← h.2])

theorem length_scanString {text rest scanned : List Char} (h : scanString text = .ok (scanned, rest)) :
    rest.length < text.length := by
  fun_induction scanString text generalizing scanned with
  | case1 => cases h
  | case2 => cases h; simp
  | case3 => cases h
  | case4 tail c after he ih =>
    have := length_map_cons ih h
    have := length_scanEscape he
    simp only [List.length_cons]
    omega
  | case5 => cases h
  | case6 c tail _ _ _ ih =>
    have := length_map_cons ih h
    simp only [List.length_cons]
    omega

/-- A number or word that begins with the character `c`. -/
def scanScalar (c : Char) (rest : List Char) : Scan Token :=
  if c = 'n' then (scanWord ['u', 'l', 'l'] rest).map fun rest => (.null, rest)
  else if c = 't' then (scanWord ['r', 'u', 'e'] rest).map fun rest => (.bool true, rest)
  else if c = 'f' then (scanWord ['a', 'l', 's', 'e'] rest).map fun rest => (.bool false, rest)
  else if c = '-' then scanUnsigned true rest
  else if isDigit c then scanUnsigned false (c :: rest)
  else .error .malformed

/-- The token of a punctuation mark. -/
def punctuation? (c : Char) : Option Token :=
  [('[', Token.beginArray), (']', .endArray), ('\x7b', .beginObject), ('\x7d', .endObject), (',', .comma),
   (':', .colon)].lookup c

/-- The token that begins with the character `c`, and what follows it; after a bad token nothing does. -/
def scan (c : Char) (rest : List Char) : Token × List Char :=
  match punctuation? c with
  | some token => (token, rest)
  | none =>
    if c = '"' then
      match scanString rest with
      | .ok (chars, rest) => (.string (String.ofList chars), rest)
      | .error defect => (.bad true defect, [])
    else match scanScalar c rest with
      | .ok (token, rest) => (token, rest)
      | .error defect => (.bad false defect, [])

theorem length_map_scanWord {letters text rest : List Char} {t token : Token}
    (h : (scanWord letters text).map (fun rest => (t, rest)) = .ok (token, rest)) : rest.length ≤ text.length := by
  cases hs : scanWord letters text with
  | error d => simp [hs, Except.map] at h
  | ok after =>
    simp only [hs, Except.map, Except.ok.injEq, Prod.mk.injEq] at h
    rw [← h.2]
    exact length_scanWord hs

theorem length_scanScalar {c : Char} {text rest : List Char} {token : Token}
    (h : scanScalar c text = .ok (token, rest)) : rest.length ≤ text.length := by
  unfold scanScalar at h
  split at h
  · exact length_map_scanWord h
  split at h
  · exact length_map_scanWord h
  split at h
  · exact length_map_scanWord h
  split at h
  · exact Nat.le_of_lt (length_scanUnsigned h)
  split at h
  · exact Nat.le_of_lt_succ (length_scanUnsigned h)
  · cases h

theorem length_scan (c : Char) (rest : List Char) : (scan c rest).2.length ≤ rest.length := by
  unfold scan
  split
  · exact Nat.le_refl _
  · split
    · split
      · next hs => exact Nat.le_of_lt (length_scanString hs)
      · simp
    · split
      · next hs => exact length_scanScalar hs
      · simp

/-- The tokens of a text. -/
def ofText (text : List Char) : List Token :=
  match _h : text.dropWhile isGap with
  | [] => []
  | c :: rest => (scan c rest).1 :: ofText (scan c rest).2
termination_by text.length
decreasing_by
  have h1 := length_scan c rest
  have h2 := (List.dropWhile_sublist isGap (l := text)).length_le
  rw [_h, List.length_cons] at h2
  omega

end Token

end LiveHighlight
