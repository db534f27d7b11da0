import LiveHighlight.Json.Basic
import LiveHighlight.Text.Hex

/-!
# Writing JSON

The text of a value, without blanks. In strings, quotes, backslashes and control characters are escaped and all else stands
as it is. Only a whole value has a text; of what was not read nothing is written.
-/

namespace LiveHighlight

namespace Json

/-- The letter that escapes a character, for those that have one. -/
def escapeLetter? (c : Char) : Option Char :=
  [('"', '"'), ('\\', '\\'), ('\x08', 'b'), ('\x0C', 'f'), ('\n', 'n'), ('\r', 'r'), ('\t', 't')].lookup c

/-- A character as it stands in a string. -/
def escape (c : Char) : List Char :=
  match escapeLetter? c with
  | some letter => ['\\', letter]
  | none => if c.toNat < 0x20 then '\\' :: 'u' :: hexDigits 4 c.toNat else [c]

/-- A string in quotes. -/
def quote (s : String) : List Char := '"' :: s.toList.flatMap escape ++ ['"']

mutual

/-- The text of a value. -/
def render : Json → List Char
  | .null => "null".toList
  | .bool true => "true".toList
  | .bool false => "false".toList
  | .natural n => Nat.toDigits 10 n
  | .string s => quote s
  | .array items _ => '[' :: renderItems items ++ [']']
  | .object fields _ => '\x7b' :: renderFields fields ++ ['\x7d']
  | .number => []
  | .broken _ => []

/-- The text of items, with commas between them. -/
def renderItems : List Json → List Char
  | [] => []
  | [j] => render j
  | j :: rest => render j ++ ',' :: renderItems rest

/-- The text of fields, with commas between them. -/
def renderFields : List (String × Json) → List Char
  | [] => []
  | [(name, j)] => quote name ++ ':' :: render j
  | (name, j) :: rest => quote name ++ ':' :: render j ++ ',' :: renderFields rest

end

/-- The text of a value, as a string. -/
def toText (j : Json) : String := String.ofList j.render

end Json

end LiveHighlight
