import LiveHighlight.Annotation
import LiveHighlight.Terminal.Basic

/-!
# Grammars

A grammar is a list of named states. A state is an ordered choice between productions, and a production is a sequence of
elements, each a terminal or a reference to a state by its place in the list.
-/

namespace LiveHighlight

/-- What an element matches: a terminal, or the state with the given place in the grammar. -/
inductive Target where
  | terminal (t : Terminal)
  | state (id : Nat)
  deriving DecidableEq, Repr

/-- One element of a production. Visible matches are reported; words keep the name of their state. -/
structure Element where
  target : Target
  color : Color
  visible : Bool
  word : Bool
  deriving DecidableEq, Repr

namespace Element

/-- The terminal of an element that is one. -/
def terminal? (e : Element) : Option Terminal :=
  match e.target with
  | .terminal t => some t
  | .state _ => none

/-- The state that an element refers to. -/
def state? (e : Element) : Option Nat :=
  match e.target with
  | .terminal _ => none
  | .state id => some id

/-- Whether the element is a terminal. -/
def isTerminal (e : Element) : Bool := e.terminal?.isSome

end Element

/-- A sequence of elements that match one right after the other. -/
abbrev Production : Type := List Element

/-- A named ordered choice between productions. -/
structure State where
  name : String
  productions : List Production
  deriving DecidableEq, Repr

/-- A resolved description of a language. -/
structure Grammar where
  name : String
  states : List State
  start : Nat
  deriving DecidableEq, Repr

namespace Grammar

/-- The state with the given place. -/
def state? (g : Grammar) (id : Nat) : Option State := g.states[id]?

/-- The place of the state with the given name. -/
def stateId? (g : Grammar) (name : String) : Option Nat := (g.states.map (·.name)).idxOf? name

/-- The element that stands for the start state: plain, hidden and no word. -/
def startElement (g : Grammar) : Element := ⟨.state g.start, .plain, false, false⟩

end Grammar

end LiveHighlight
