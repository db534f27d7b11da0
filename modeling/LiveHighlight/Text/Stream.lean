/-!
# Character streams

A stream is a snapshot of some text as a sequence of characters. Positions count characters from zero, and every read is
total: a position at or past the end holds no character.
-/

namespace LiveHighlight

/-- A snapshot of a text, read by character position. -/
structure Stream where
  chars : Array Char
  deriving DecidableEq, Repr, Inhabited

namespace Stream

/-- The stream of a text's characters. -/
def ofString (text : String) : Stream := ⟨text.toList.toArray⟩

/-- The characters of the stream in order. -/
def toList (s : Stream) : List Char := s.chars.toList

/-- The number of characters. -/
def length (s : Stream) : Nat := s.chars.size

/-- Whether the stream holds no character. -/
def isEmpty (s : Stream) : Bool := s.length == 0

/-- The character at a position, none at or past the end. -/
def charAt (s : Stream) (pos : Nat) : Option Char := s.chars[pos]?

/-- Whether the position holds a character. -/
def inBounds (s : Stream) (pos : Nat) : Bool := decide (pos < s.length)

/-- The characters from `start` up to `stop`, both cut to the stream; empty when `stop` comes first. -/
def slice (s : Stream) (start stop : Nat) : String := String.ofList (s.chars.extract start stop).toList

@[simp] theorem toList_ofString (text : String) : (ofString text).toList = text.toList := rfl

@[simp] theorem length_toList (s : Stream) : s.toList.length = s.length := by simp [toList, length]

/-- A position holds a character exactly when it is in bounds. -/
theorem isSome_charAt (s : Stream) (pos : Nat) : (s.charAt pos).isSome = s.inBounds pos := by
  by_cases h : pos < s.chars.size <;> simp [charAt, inBounds, length, h]

theorem charAt_eq_getElem? (s : Stream) (pos : Nat) : s.charAt pos = s.toList[pos]? := by simp [charAt, toList]

end Stream

end LiveHighlight
