import LiveHighlight.Parse.Fault

/-!
# Listeners

What a parse tells of itself and who hears it. A listener may refuse an event with a fault, which ends the parse; the end
by a fault is told as well and cannot be refused.
-/

namespace LiveHighlight

/-- An element that matched: which, where and how long, and the name of the state it refers to. -/
structure Match where
  element : Element
  offset : Nat
  length : Nat
  state : Option String
  deriving DecidableEq, Repr

namespace Match

/-- The position after the match. -/
def stop (m : Match) : Nat := m.offset + m.length

/-- What a match is called: the terminal as displayed, or the name of the state. -/
def label (m : Match) : String :=
  match m.element.terminal? with
  | some t => t.display
  | none => m.state.getD ""

end Match

/-- What a parse tells as it goes: a visible match, or a position at which the start state matches nothing. -/
inductive Event where
  | matched (m : Match)
  | unmatched (element : Element) (position : Nat)
  deriving DecidableEq, Repr

/-- The position that an event is about. -/
def Event.position : Event → Nat
  | .matched m => m.offset
  | .unmatched _ position => position

/-- Hears the events of a parse with a memory of type `σ`. -/
structure Listener (σ : Type) where
  /-- Takes an event, or refuses it with a fault; the memory changes either way. -/
  hear : σ → Event → σ × Option ParseFault
  /-- Is told of the fault that ended the parse, and of the position reached. -/
  abort : σ → ParseFault → Nat → σ

/-- An entry of a notebook: an event, or the fault that ended the parse. -/
inductive Note where
  | heard (event : Event)
  | aborted (fault : ParseFault) (position : Nat)
  deriving DecidableEq, Repr

/-- What a record of a parse keeps of a note: the words for it and its place, not the element. -/
inductive Record where
  | matched (label : String) (offset length : Nat) (color : Color)
  | unmatched (position : Nat)
  | aborted (message : String) (position : Nat)
  deriving DecidableEq, Repr

/-- What is recorded of an event. -/
def Event.record : Event → Record
  | .matched m => .matched m.label m.offset m.length m.element.color
  | .unmatched _ position => .unmatched position

/-- What is recorded of a note. -/
def Note.record : Note → Record
  | .heard event => event.record
  | .aborted fault position => .aborted fault.message position

/-- Writes everything down and refuses nothing. -/
def notebook : Listener (Array Note) where
  hear notes event := (notes.push (.heard event), none)
  abort notes fault position := notes.push (.aborted fault position)

/-- When an impatient listener refuses: at a match or at an error, each counted from one, and with which fault. -/
structure Patience where
  matchNumber : Option Nat
  errorNumber : Option Nat
  fault : ParseFault
  deriving DecidableEq, Repr

/-- Passes events on to `l` and refuses the match and the error that its patience names, having passed them on. Its memory
counts the matches and the errors so far. -/
def Listener.impatient {σ : Type} (l : Listener σ) (p : Patience) : Listener (σ × Nat × Nat) where
  hear memory event :=
    let (inner, refused) := l.hear memory.1 event
    match event with
    | .matched _ =>
      let count := memory.2.1 + 1
      ((inner, count, memory.2.2), if p.matchNumber = some count then some p.fault else refused)
    | .unmatched _ _ =>
      let count := memory.2.2 + 1
      ((inner, memory.2.1, count), if p.errorNumber = some count then some p.fault else refused)
  abort memory fault position := (l.abort memory.1 fault position, memory.2)

end LiveHighlight
