import LiveHighlight.Annotation
import LiveHighlight.Text.Lines

/-!
# Buffers

The lines of a document, each with the annotations put on it. An edit either says that a line is out of range and changes
nothing, or gives the new buffer and the kind of change. A line that an edit does not address keeps text and annotations,
and new lines carry none.
-/

namespace LiveHighlight

/-- One line of text and its annotations in the order in which they were added. -/
structure Line where
  text : String
  annotations : List Annotation
  deriving DecidableEq, Repr, Inhabited

/-- A line without annotations. -/
def Line.ofText (text : String) : Line := ⟨text, []⟩

/-- How a document changed. -/
inductive BufferEvent where
  | singleLine | multiLine | loaded | formatted
  deriving DecidableEq, Repr

/-- Whether the change makes annotations stale: all do but their own renewal. -/
def BufferEvent.requestsParse (e : BufferEvent) : Bool := decide (e ≠ .formatted)

/-- Why a document refuses. -/
inductive DocumentError where
  | lineOutOfRange (line count : Nat)
  deriving DecidableEq, Repr

/-- The words for a refusal. -/
def DocumentError.message : DocumentError → String
  | .lineOutOfRange line count => s!"line {line} is out of range (document has {count} lines)"

/-- The lines of a document. -/
structure Buffer where
  lines : List Line
  deriving DecidableEq, Repr, Inhabited

/-- A change of a document's text. -/
inductive Edit where
  /-- Replaces everything, as when a file is opened. -/
  | load (text : String)
  /-- Replaces everything. -/
  | setText (text : String)
  /-- Replaces a line by the lines of a text. -/
  | setLine (line : Nat) (text : String)
  /-- Puts the lines of a text before a line, or after the last one. -/
  | insertLine (line : Nat) (text : String)
  /-- Takes a line out. -/
  | removeLine (line : Nat)
  deriving DecidableEq, Repr

namespace Buffer

/-- The lines of a text, without annotations. -/
def linesOf (text : String) : List Line := (splitLines text).map Line.ofText

/-- The buffer of a text. -/
def ofText (text : String) : Buffer := ⟨linesOf text⟩

/-- The number of lines. -/
def lineCount (b : Buffer) : Nat := b.lines.length

/-- The whole text, lines joined by line feeds. -/
def text (b : Buffer) : String := joinLines (b.lines.map (·.text))

/-- A snapshot of the text for one parse. -/
def snapshot (b : Buffer) : LineStream := .ofLines (b.lines.map (·.text))

/-- The refusal of a line that is not there. -/
def outOfRange (b : Buffer) (line : Nat) : DocumentError := .lineOutOfRange line b.lineCount

/-- The line with the given number. -/
def line (b : Buffer) (line : Nat) : Except DocumentError Line :=
  match b.lines[line]? with
  | some found => .ok found
  | none => .error (b.outOfRange line)

/-- The buffer after an edit and the kind of change. A buffer never loses its last line: an empty one takes its place. -/
def edit (b : Buffer) : Edit → Except DocumentError (Buffer × BufferEvent)
  | .load text => .ok (ofText text, .loaded)
  | .setText text => .ok (ofText text, .multiLine)
  | .setLine line text =>
    if line < b.lineCount then
      let new := linesOf text
      .ok (⟨b.lines.take line ++ new ++ b.lines.drop (line + 1)⟩, if new.length = 1 then .singleLine else .multiLine)
    else .error (b.outOfRange line)
  | .insertLine line text =>
    if line ≤ b.lineCount then .ok (⟨b.lines.take line ++ linesOf text ++ b.lines.drop line⟩, .multiLine)
    else .error (b.outOfRange line)
  | .removeLine line =>
    if line < b.lineCount then
      let rest := b.lines.take line ++ b.lines.drop (line + 1)
      .ok (⟨if rest = [] then [.ofText ""] else rest⟩, .multiLine)
    else .error (b.outOfRange line)

/-- The buffer without annotations. -/
def clear (b : Buffer) : Buffer := ⟨b.lines.map fun l => .ofText l.text⟩

/-- The buffer with an annotation added at the end of a line's annotations. -/
def annotate (b : Buffer) (line : Nat) (a : Annotation) : Except DocumentError Buffer :=
  if line < b.lineCount then .ok ⟨b.lines.modify line fun l => { l with annotations := l.annotations ++ [a] }⟩
  else .error (b.outOfRange line)

/-- Whether any line carries an annotation. -/
def hasAnnotations (b : Buffer) : Bool := b.lines.any fun l => !l.annotations.isEmpty

end Buffer

end LiveHighlight
