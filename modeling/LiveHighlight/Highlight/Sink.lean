import LiveHighlight.Document.Buffer
import LiveHighlight.Parse.Run

/-!
# From parse events to annotations

A sink listens to a parse of a snapshot and annotates the buffer that the snapshot was taken from. Positions become lines
and columns of the snapshot. Where the buffer has lost the line in the meantime, the event is refused and the parse ends.
-/

namespace LiveHighlight

/-- Turns the events of a parse of a snapshot into annotations. -/
structure Sink where
  snapshot : LineStream
  errorColor : Color
  deriving DecidableEq, Repr, Inhabited

namespace Sink

/-- A sink for a snapshot. Error marks must be told from the categories of grammars, so a color that is not reserved is
replaced by the usual one. -/
def make (snapshot : LineStream) (errorColor : Color) : Sink :=
  ⟨snapshot, if errorColor.isReserved then errorColor else .error⟩

/-- The line and column of a position. -/
def locate (k : Sink) (position : Nat) : Except ParseFault (Nat × Nat) :=
  match k.snapshot.seekLine position with
  | some place => .ok place
  | none => .error (.listener s!"offset {position} is outside the document ({k.snapshot.length} chars)")

/-- The place of the mark of an error: where it is, or the last character of the last line when it is past the end. -/
def locateError (k : Sink) (position : Nat) : Except ParseFault (Nat × Nat) :=
  if k.snapshot.stream.inBounds position then k.locate position
  else
    let last := k.snapshot.lineCount - 1
    .ok (last, (k.snapshot.lineLength last).getD 0 - 1)

/-- The line and the annotation that an event comes to. A match keeps its state's name when it is a word; an error is a
mark of one character. -/
def mark (k : Sink) : Event → Except ParseFault (Nat × Annotation)
  | .matched m =>
    (k.locate m.offset).map fun place =>
      (place.1, ⟨place.2, m.length, m.element.color, if m.element.word then m.state else none⟩)
  | .unmatched _ position => (k.locateError position).map fun place => (place.1, ⟨place.2, 1, k.errorColor, none⟩)

/-- The buffer with the annotation that an event comes to. -/
def write (k : Sink) (b : Buffer) (e : Event) : Except ParseFault Buffer :=
  match k.mark e with
  | .error fault => .error fault
  | .ok (line, a) =>
    match b.annotate line a with
    | .error error => .error (.listener error.message)
    | .ok b => .ok b

/-- What a sink says of the fault that ended its parse. -/
def complaint (fault : ParseFault) (position : Nat) : String := s!"{fault.message} (at offset {position})"

/-- The buffer that a sink writes to, and its complaint if the parse was ended by a fault. -/
structure Draft where
  buffer : Buffer
  complaint : Option String
  deriving DecidableEq, Repr, Inhabited

/-- The sink as a listener. -/
def listener (k : Sink) : Listener Draft where
  hear draft e :=
    match k.write draft.buffer e with
    | .ok b => ({ draft with buffer := b }, none)
    | .error fault => (draft, some fault)
  abort draft fault position := { draft with complaint := some (complaint fault position) }

end Sink

end LiveHighlight
