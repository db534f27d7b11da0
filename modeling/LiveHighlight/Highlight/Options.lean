import LiveHighlight.Annotation
import LiveHighlight.Parse.Run

/-!
# Options of a parse

How the background parse of one document is tuned.
-/

namespace LiveHighlight

/-- The tuning of background parsing. -/
structure ParseOptions where
  /-- The deepest nesting that is expanded. -/
  maxDepth : Nat
  /-- Parser steps in one step of work. -/
  sliceBudget : Nat
  /-- The delay between two steps of work. -/
  stepInterval : Nat
  /-- The color of error marks. Only a reserved color is used. -/
  errorColor : Color
  deriving DecidableEq, Repr

namespace ParseOptions

/-- The tuning where none is given. -/
def standard : ParseOptions := ⟨defaultMaxDepth, 32, 0, .error⟩

instance : Inhabited ParseOptions := ⟨standard⟩

/-- Parser steps in one step of work: at least one. -/
def stepsPerSlice (o : ParseOptions) : Nat := max o.sliceBudget 1

end ParseOptions

end LiveHighlight
