/-!
# Character classes

The classes of characters that terminals accept. White space is the Unicode property `White_Space`, given as a table; blanks
are white space that is no control character; a letter is an ASCII letter or any character outside ASCII.
-/

namespace LiveHighlight

/-- The characters with the Unicode property `White_Space`, as inclusive ranges of code points in increasing order. -/
def whiteSpaceRanges : List (Nat × Nat) :=
  [(0x9, 0xD), (0x20, 0x20), (0x85, 0x85), (0xA0, 0xA0), (0x1680, 0x1680), (0x2000, 0x200A), (0x2028, 0x2029),
   (0x202F, 0x202F), (0x205F, 0x205F), (0x3000, 0x3000)]

/-- Whether the character has the Unicode property `White_Space`. -/
def isWhiteSpace (c : Char) : Bool := whiteSpaceRanges.any fun r => r.1 ≤ c.toNat && c.toNat ≤ r.2

/-- Whether the character is a control character: the general category `Cc`, code points up to 1F and from 7F to 9F. -/
def isControl (c : Char) : Bool := c.toNat < 0x20 || (0x7F ≤ c.toNat && c.toNat ≤ 0x9F)

/-- A blank is white space on the line: white space that is no control character. -/
def isBlank (c : Char) : Bool := isWhiteSpace c && !isControl c

/-- Line break characters: line feed and carriage return. -/
def isLineBreak (c : Char) : Bool := c == '\n' || c == '\r'

/-- The decimal digits of ASCII. -/
def isDigit (c : Char) : Bool := '0' ≤ c && c ≤ '9'

/-- A letter is an ASCII letter or any character outside ASCII. -/
def isLetter (c : Char) : Bool := ('a' ≤ c && c ≤ 'z') || ('A' ≤ c && c ≤ 'Z') || 0x80 ≤ c.toNat

example : (whiteSpaceRanges.map fun r => r.2 + 1 - r.1).sum = 25 := by decide

end LiveHighlight
