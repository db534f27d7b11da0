import LiveHighlight.Grammar.Error
import LiveHighlight.Terminal.Registry

/-!
# Grammar descriptions

A description names terminals by class and states by name. Building resolves both, so that a grammar that is built has no
open reference. The first fault in reading order is the one reported: a state declared twice, then a start state that is not
declared, then state by state the lack of productions and the faults of their elements.
-/

namespace LiveHighlight

/-- An element as described: it names a terminal class or a state, never both. -/
structure ElementSpec where
  terminal : Option String
  state : Option String
  /-- The lexeme or character set that a terminal is made from. -/
  value : Option String
  color : Nat
  /-- Overrides the visibility that the element would have. -/
  visible : Option Bool
  word : Bool
  min : Option Nat
  max : Option Nat
  deriving DecidableEq, Repr

namespace ElementSpec

/-- The element of which nothing is said. -/
def blank : ElementSpec := ⟨none, none, none, 0, none, false, none, none⟩

instance : Inhabited ElementSpec := ⟨blank⟩

end ElementSpec

/-- A state as described, its alternatives in order. -/
structure StateSpec where
  name : String
  productions : List (List ElementSpec)
  deriving DecidableEq, Repr, Inhabited

/-- A grammar as described. Without a named start state, the state `start` is it. -/
structure GrammarSpec where
  name : String
  start : Option String
  states : List StateSpec
  deriving DecidableEq, Repr, Inhabited

/-- The first name that also stands further to the left, looking from left to right past the names in `seen`. -/
def firstRepeated (seen : List String) : List String → Option String
  | [] => none
  | name :: rest => if name ∈ seen then some name else firstRepeated (name :: seen) rest

namespace ElementSpec

/-- Resolves a terminal of the named class in the state of the given name. -/
def resolveTerminal (registry : TerminalRegistry) (state cls : String) (spec : ElementSpec) :
    Except GrammarError Element :=
  if spec.word then .error (.invalidElement state s!"terminal '{cls}' cannot be a word")
  else match Directory.get? registry cls with
    | none => .error (.unknownClass state cls)
    | some maker =>
      match maker spec.value >>= fun t => t.limit spec.min spec.max with
      | .error error => .error (.invalidTerminal cls error.message)
      | .ok t => .ok ⟨.terminal t, .ofNat spec.color, spec.visible.getD t.visibleByDefault, false⟩

/-- Resolves a reference, given the names of all states in order. -/
def resolveReference (names : List String) (state reference : String) (spec : ElementSpec) :
    Except GrammarError Element :=
  if spec.min.isSome ∨ spec.max.isSome then
    .error (.invalidElement state s!"reference to '{reference}' cannot take min/max")
  else match names.idxOf? reference with
    | none => .error (.unresolvedReference state reference)
    | some id => .ok ⟨.state id, .ofNat spec.color, spec.visible.getD spec.word, spec.word⟩

/-- Resolves an element of the state of the given name. -/
def resolve (registry : TerminalRegistry) (names : List String) (state : String) (spec : ElementSpec) :
    Except GrammarError Element :=
  match spec.terminal, spec.state with
  | some cls, none => spec.resolveTerminal registry state cls
  | none, some reference => spec.resolveReference names state reference
  | some _, some _ => .error (.invalidElement state "element names both a terminal and a state")
  | none, none => .error (.invalidElement state "element names neither a terminal nor a state")

end ElementSpec

/-- Resolves a state, given the names of all states in order. -/
def StateSpec.resolve (registry : TerminalRegistry) (names : List String) (spec : StateSpec) : Except GrammarError State :=
  if spec.productions = [] then .error (.emptyState spec.name)
  else (spec.productions.mapM fun (elements : List ElementSpec) =>
    elements.mapM (ElementSpec.resolve registry names spec.name)).map (State.mk spec.name)

namespace GrammarSpec

/-- The name of the start state when a description gives none. -/
def defaultStart : String := "start"

/-- Builds the grammar: every reference and every terminal class is resolved, or the first fault is given. -/
def build (spec : GrammarSpec) (registry : TerminalRegistry) : Except GrammarError Grammar :=
  let names := spec.states.map (·.name)
  match firstRepeated [] names with
  | some name => .error (.duplicateState name)
  | none =>
    let start := spec.start.getD defaultStart
    match names.idxOf? start with
    | none => .error (.missingStart spec.name start)
    | some id => (spec.states.mapM (StateSpec.resolve registry names)).map fun states => ⟨spec.name, states, id⟩

end GrammarSpec

end LiveHighlight
