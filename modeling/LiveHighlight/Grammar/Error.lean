import LiveHighlight.Grammar.Basic
import LiveHighlight.Json.Basic

/-!
# Grammar errors

What can go wrong when a grammar is described, read, built, registered or asked for a state, with the words for each.
-/

namespace LiveHighlight

/-- Why there is no grammar, or no such state of one. -/
inductive GrammarError where
  | unknownState (grammar state : String)
  | unresolvedReference (state reference : String)
  | unknownClass (state cls : String)
  | invalidTerminal (cls reason : String)
  | duplicateState (state : String)
  | missingStart (grammar start : String)
  | emptyState (state : String)
  | invalidElement (state reason : String)
  | duplicateGrammar (grammar : String)
  /-- The file cannot be read as text. -/
  | unreadable
  /-- The text is no definition. -/
  | badDefinition (defect : TextDefect)
  deriving DecidableEq, Repr

namespace GrammarError

/-- The words for an error. -/
def message : GrammarError → String
  | .unknownState grammar state => s!"grammar '{grammar}' has no state named '{state}'"
  | .unresolvedReference state reference => s!"state '{state}' references undeclared state '{reference}'"
  | .unknownClass state cls => s!"state '{state}' uses unknown terminal class '{cls}'"
  | .invalidTerminal cls reason => s!"invalid '{cls}' terminal: {reason}"
  | .duplicateState state => s!"state '{state}' is declared more than once"
  | .missingStart grammar start => s!"grammar '{grammar}' has no start state '{start}'"
  | .emptyState state => s!"state '{state}' has no productions"
  | .invalidElement state reason => s!"invalid element in state '{state}': {reason}"
  | .duplicateGrammar grammar => s!"grammar '{grammar}' is already registered"
  | .unreadable => "the definition cannot be read"
  | .badDefinition .malformed => "the definition is not JSON"
  | .badDefinition .mismatch => "the definition does not describe a grammar"
  | .badDefinition .truncated => "the definition ends too early"

end GrammarError

/-- The state with the given name. -/
def Grammar.findState (g : Grammar) (name : String) : Except GrammarError State :=
  match g.states.find? (·.name = name) with
  | some state => .ok state
  | none => .error (.unknownState g.name name)

end LiveHighlight
