import LiveHighlight.Text.Cut
import LiveHighlight.Text.Stream

/-!
# Lines

A text is cut into lines at line feeds, and a carriage return that ends a line belongs to no line. A line stream is a
snapshot of some lines joined by line feeds that remembers where each line starts, so that a position can be given as a
line and a column.
-/

namespace LiveHighlight

/-- A line without the carriage return that ends it, if there is one; only one is taken off. -/
def dropCarriageReturn (piece : List Char) : List Char :=
  if piece.getLast? = some '\r' then piece.dropLast else piece

/-- The lines of a text: cut at line feeds, each without the carriage return that ends it. -/
def splitLines (text : String) : List String :=
  (cutAt '\n' text.toList).map fun piece => String.ofList (dropCarriageReturn piece)

/-- The lines joined by line feeds. -/
def joinLines (lines : List String) : String := "\n".intercalate lines

/-- A snapshot of lines joined by line feeds, with the position at which each line starts. -/
structure LineStream where
  stream : Stream
  starts : Array Nat
  deriving DecidableEq, Repr, Inhabited

namespace LineStream

/-- The positions at which the lines start when the first of them starts at `pos`. -/
def startsFrom (pos : Nat) : List String → List Nat
  | [] => []
  | line :: lines => pos :: startsFrom (pos + line.length + 1) lines

/-- The snapshot of some lines. Of no lines it is that of one empty line. -/
def ofLines (lines : List String) : LineStream where
  stream := Stream.ofString (joinLines lines)
  starts := (if lines.isEmpty then [0] else startsFrom 0 lines).toArray

/-- The number of characters, separators included. -/
def length (s : LineStream) : Nat := s.stream.length

/-- The number of lines. -/
def lineCount (s : LineStream) : Nat := s.starts.size

/-- The position of a line's first character. -/
def lineStart (s : LineStream) (line : Nat) : Option Nat := s.starts[line]?

/-- The number of characters of a line without its separator. -/
def lineLength (s : LineStream) (line : Nat) : Option Nat :=
  (s.lineStart line).map fun start =>
    match s.lineStart (line + 1) with
    | some next => next - 1 - start
    | none => s.length - start

/-- The line and column of a position. A separator belongs to the line it ends, and the position after the last character
to the last line; positions beyond have none. -/
def seekLine (s : LineStream) (pos : Nat) : Option (Nat × Nat) :=
  if s.length < pos then none
  else
    let line := (s.starts.toList.takeWhile (· ≤ pos)).length - 1
    some (line, pos - s.starts.getD line 0)

/-- What to ask of a line stream: characters, bounds, lines and positions. -/
structure Query where
  chars : List Nat
  bounds : List Nat
  /-- The lines to report on; without a list, every line and the one after the last. -/
  lines : Option (List Nat)
  /-- The positions to locate; without a list, every position, the end and the one after it. -/
  seek : Option (List Nat)
  deriving Repr, Inhabited

/-- A line stream's answers to a query, each list in the query's order. -/
structure Survey where
  length : Nat
  isEmpty : Bool
  lineCount : Nat
  chars : List (Option Char)
  bounds : List Bool
  starts : List (Option Nat)
  lengths : List (Option Nat)
  seek : List (Option (Nat × Nat))
  deriving DecidableEq, Repr

/-- Answers a query. -/
def survey (s : LineStream) (q : Query) : Survey :=
  let lines := q.lines.getD (List.range (s.lineCount + 1))
  { length := s.length
    isEmpty := s.stream.isEmpty
    lineCount := s.lineCount
    chars := q.chars.map s.stream.charAt
    bounds := q.bounds.map s.stream.inBounds
    starts := lines.map s.lineStart
    lengths := lines.map s.lineLength
    seek := (q.seek.getD (List.range (s.length + 2))).map s.seekLine }

end LineStream

end LiveHighlight
