/-!
# Annotations

What highlighting puts on a line: colored spans. Colors from zero up belong to grammars, negative ones are reserved, and a
span whose color is reserved marks a parse error.
-/

namespace LiveHighlight

/-- A category of text. Grammars assign the categories from zero up. -/
structure Color where
  index : Int
  deriving DecidableEq, Repr, Inhabited

namespace Color

/-- The category of text without one of its own. -/
def plain : Color := ⟨0⟩

/-- The category of parse errors. -/
def error : Color := ⟨-4⟩

/-- The category a grammar assigns by number. -/
def ofNat (n : Nat) : Color := ⟨n⟩

/-- Reserved categories are the negative ones. -/
def isReserved (c : Color) : Bool := decide (c.index < 0)

/-- The category's number in decimal. -/
def display (c : Color) : String := toString c.index

@[simp] theorem isReserved_ofNat (n : Nat) : (ofNat n).isReserved = false :=
  decide_eq_false (by simp only [ofNat]; omega)

end Color

/-- A colored span of a line, offsets counted from the line's start. A word also keeps the name of the state that matched. -/
structure Annotation where
  offset : Nat
  length : Nat
  color : Color
  word : Option String
  deriving DecidableEq, Repr, Inhabited

/-- Whether the span marks a parse error. -/
def Annotation.isError (a : Annotation) : Bool := a.color.isReserved

end LiveHighlight
