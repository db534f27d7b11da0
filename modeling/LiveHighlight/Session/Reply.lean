import LiveHighlight.Document.Buffer
import LiveHighlight.Highlight.Handler
import LiveHighlight.Highlight.Job
import LiveHighlight.Schedule.Scheduler

/-!
# Replies

What a session answers to a call, and the journal in which it writes down what happens meanwhile.
-/

namespace LiveHighlight

/-- What a call can name in vain. -/
inductive Missing where
  | document | observer | snapshot | place | handler | token | worker | sink
  deriving DecidableEq, Repr

/-- What a session says of a document. -/
structure DocumentSummary where
  text : String
  lineCount : Nat
  hasAnnotations : Bool
  /-- The number of watchers that are alive. -/
  watchers : Nat
  /-- The number of subscriptions, with those of watchers that are gone and have not been cleared away yet. -/
  subscriptions : Nat
  deriving DecidableEq, Repr

/-- A summary in one line. -/
def DocumentSummary.display (s : DocumentSummary) : String :=
  s!"Document \x7b lines: {s.lineCount}, observers: {s.subscriptions} \x7d"

/-- What a session says of a place of work. -/
structure PlaceSummary where
  phase : SlotPhase
  isFree : Bool
  appointment : Option Nat
  label : String
  deriving DecidableEq, Repr

/-- What a session answers to a call. -/
inductive Reply where
  /-- There is nothing to say. -/
  | done
  | flag (b : Bool)
  /-- The document or the sink did what it was asked. -/
  | accepted
  | line (l : Line)
  | document (d : DocumentSummary)
  | survey (s : LineStream.Survey)
  | refused (e : DocumentError)
  | refusedGrammar (e : GrammarError)
  | refusedHandler (e : HandlerError)
  | refusedEvent (fault : ParseFault)
  | report (r : TickReport)
  /-- How many steps ran. -/
  | ran (steps : Nat)
  | failed (fault : WorkFault)
  | options (o : SchedulerOptions)
  | place (p : PlaceSummary)
  | registered (language : String)
  | handler (grammar : String) (o : ParseOptions)
  | stepped (step : Step) (isDone : Bool)
  | missing (what : Missing)
  /-- Something touched a slot while a worker was being put in over another one. Nothing is left of the session. -/
  | crashed
  deriving DecidableEq, Repr

/-- Something that happened in a session. -/
inductive Entry where
  /-- An observer was told of a change. -/
  | heard (observer : String) (event : BufferEvent)
  /-- An error site was told something. -/
  | complaint (source message : String)
  /-- A scripted worker began the step with the given number. -/
  | stepped (worker : Nat) (name : String) (number : Nat)
  /-- A parse worker began a step. -/
  | parsed (worker : Nat) (phase : JobPhase)
  /-- A worker was discarded; only a scripted one has a name. -/
  | dropped (worker : Nat) (name : Option String)
  /-- A call made by code that the host lent was answered. -/
  | called (call : String) (reply : Reply)
  deriving DecidableEq, Repr

end LiveHighlight
