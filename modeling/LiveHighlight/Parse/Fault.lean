import LiveHighlight.Grammar.Basic

/-!
# Parse faults

A fault ends a parse for good. It is not an error of the text: a text that does not fit the grammar is reported and passed
over. A fault says that the run and its grammar, its text or its listener no longer go together.
-/

namespace LiveHighlight

/-- Why a parse cannot go on. -/
inductive ParseFault where
  /-- An element that was seen to match no longer does. -/
  | inconsistent (element : String) (position : Nat)
  | unknownState (id : Nat)
  | unknownElement (state : String) (production index : Nat)
  /-- The listener could not take an event. -/
  | listener (reason : String)
  deriving DecidableEq, Repr

/-- The words for a fault. -/
def ParseFault.message : ParseFault → String
  | .inconsistent element position => s!"element {element} accepted at {position} no longer matches"
  | .unknownState id => s!"grammar has no state with id {id}"
  | .unknownElement state production index => s!"state {state} has no element {production}.{index}"
  | .listener reason => s!"parse listener failed: {reason}"

/-- The element as faults name it: the terminal, or the name of the state. -/
def Grammar.nameOf (g : Grammar) : Target → String
  | .terminal t => t.display
  | .state id => match g.state? id with
    | some state => state.name
    | none => s!"#{id}"

end LiveHighlight
