import LiveHighlight.Highlight.Options
import LiveHighlight.Highlight.Sink
import LiveHighlight.Schedule.Work

/-!
# Parse jobs

The work of one full parse: clear the annotations, parse the snapshot a slice at a time, then announce that the annotations
are renewed. The text is the one at the job's creation. A step of a cancelled job ends it and leaves the document alone.
-/

namespace LiveHighlight

/-- How far a parse job is. -/
inductive JobPhase where
  | clear | parse | announce | done
  deriving DecidableEq, Repr

/-- One full parse as a unit of work. -/
structure ParseJob where
  sink : Sink
  run : Run
  phase : JobPhase
  stepsPerSlice : Nat
  interval : Nat
  deriving DecidableEq, Repr

/-- What a step of a parse job comes to. -/
structure JobStep where
  job : ParseJob
  buffer : Buffer
  /-- What the document's error site is to be told. -/
  complaint : Option String
  /-- Whether the document's watchers are to be told that the annotations are renewed. -/
  announces : Bool
  next : Step
  deriving DecidableEq, Repr

namespace ParseJob

/-- A job for the text that a buffer holds now. -/
def start (g : Grammar) (b : Buffer) (o : ParseOptions) : ParseJob where
  sink := .make b.snapshot o.errorColor
  run := .start g o.maxDepth
  phase := .clear
  stepsPerSlice := o.stepsPerSlice
  interval := o.stepInterval

/-- Whether the job has ended. -/
def isDone (j : ParseJob) : Bool := decide (j.phase = .done)

/-- One slice of the parse. -/
def slice (j : ParseJob) (b : Buffer) : Run × Sink.Draft :=
  j.run.advance j.sink.listener j.sink.snapshot.stream j.stepsPerSlice ⟨b, none⟩

/-- One step of the job on the buffer as it is now. -/
def step (j : ParseJob) (cancelled : Bool) (b : Buffer) : JobStep :=
  if cancelled then ⟨{ j with phase := .done }, b, none, false, .finished⟩
  else match j.phase with
    | .clear => ⟨{ j with phase := .parse }, b.clear, none, false, .again j.interval⟩
    | .parse =>
      let (run, draft) := j.slice b
      let phase := if run.phase = .running then .parse else .announce
      ⟨{ j with run, phase }, draft.buffer, draft.complaint, false, .again j.interval⟩
    | .announce => ⟨{ j with phase := .done }, b, none, true, .finished⟩
    | .done => ⟨j, b, none, false, .finished⟩

end ParseJob

end LiveHighlight
