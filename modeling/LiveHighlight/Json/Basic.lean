/-!
# JSON values, read in part

A JSON text that is read for a definition need not be whole. The values here hold what was read up to the first defect: a
value may be broken, and an array or object may stop before its bracket. A reader that walks the value from left to right
then meets the defects in the order in which they stand in the text.
-/

namespace LiveHighlight

/-- Why a text is no definition: it is no JSON, it is JSON of another shape, or it ends too early. -/
inductive TextDefect where
  | malformed | mismatch | truncated
  deriving DecidableEq, Repr, Inhabited

/-- How the entries of an array or object end. -/
inductive Ending where
  /-- By the closing bracket. -/
  | closed
  /-- By a defect where a comma or the bracket should stand. -/
  | stopped (defect : TextDefect)
  /-- By a defect right after a comma. -/
  | dangling (defect : TextDefect)
  deriving DecidableEq, Repr, Inhabited

/-- A JSON value as far as it could be read. -/
inductive Json where
  | null
  | bool (b : Bool)
  /-- A number written with digits alone that fits into a word of 64 bits. -/
  | natural (n : Nat)
  /-- Any other number. -/
  | number
  | string (s : String)
  | array (items : List Json) (ending : Ending)
  | object (fields : List (String × Json)) (ending : Ending)
  | broken (defect : TextDefect)
  deriving Repr, Inhabited

end LiveHighlight
