import LiveHighlight.Document.Buffer
import LiveHighlight.Highlight.Handler
import LiveHighlight.Parse.Listener
import LiveHighlight.Schedule.Work

/-!
# Calls

What a host asks of a session, as data. Code that the host lends to a session is data as well: an observer's reaction, an
error site and a scripted worker are lists of calls, made in order at the moments at which the session hands over control.
-/

namespace LiveHighlight

/-- What a step of a scripted worker does: it makes calls in order and then comes to an outcome. -/
structure Act (κ : Type) where
  calls : List κ
  outcome : Outcome

/-- A scripted worker. Its last act is repeated when it is stepped on; without acts it finishes at once. -/
structure Script (κ : Type) where
  name : String
  acts : List (Act κ)
  /-- The calls made when the worker is discarded. -/
  onDrop : List κ

/-- How an observer reacts: to the first events of a kind it makes some calls. -/
structure Reaction (κ : Type) where
  /-- The kind of event, or any. -/
  trigger : Option BufferEvent
  /-- How many events it still reacts to. -/
  times : Nat
  calls : List κ

/-- Whether a reaction is due to an event. -/
def Reaction.answers {κ : Type} (r : Reaction κ) (e : BufferEvent) : Bool :=
  decide (0 < r.times ∧ (r.trigger = none ∨ r.trigger = some e))

/-- What to ask of a document. -/
inductive DocumentCall (κ : Type) where
  | edit (e : Edit)
  | clear
  | raise (e : BufferEvent)
  /-- Tells the error site something. -/
  | complain (source message : String)
  | annotate (line : Nat) (a : Annotation)
  | line (line : Nat)
  | describe
  /-- Whether another name stands for the same document. -/
  | isSame (other : String)
  | snapshot (stream : String)
  | observe (observer : String) (reaction : Reaction κ)
  /-- Makes a sink for the text as it is now. -/
  | openSink (sink : String) (errorColor : Color)
  /-- Makes a parse worker for the text as it is now. -/
  | openWorker (worker : String) (grammar : Except GrammarError Grammar) (options : ParseOptions) (token : Option String)

/-- What to ask of a place of work. -/
inductive PlaceCall (κ : Type) where
  | queue (script : Script κ) (delay : Nat)
  | queueParse (worker : String) (delay : Nat)
  | start (delay : Nat)
  | pause
  | stop
  | execute (command : Nat)
  | status

/-- What to ask of a parse handler. -/
inductive HandlerCall where
  | reparse
  | enable (on : Bool)
  | dispose
  | execute (command : Nat)

/-- What to ask of a sink. -/
inductive SinkCall where
  | matched (m : Except GrammarError Match)
  | unmatched (element : Except GrammarError Element) (position : Nat)
  | aborted (fault : ParseFault) (position : Nat)

/-- How long a host lets work run: for a round, for a slice of time, or until nothing is due. -/
inductive DriveKind where
  | tick | slice | untilIdle
  deriving DecidableEq, Repr

/-- What a host asks of a session. -/
inductive Call where
  /-- Names a new document with an error site that is silent, or records and makes calls. -/
  | document (doc text : String) (site : Option (List Call))
  | onDocument (doc : String) (call : DocumentCall Call)
  | readSnapshot (stream : String) (query : LineStream.Query)
  | unobserve (observer : String)
  /-- Lets go of an observer; it is forgotten once no event is on its way to it. -/
  | release (observer : String)
  /-- Lets work run, for at most so many rounds where no limit is set otherwise. -/
  | drive (kind : DriveKind) (rounds : Nat)
  | options
  | advance (time : Nat)
  | setClock (time : Nat)
  | place (place : String)
  | dropPlace (place : String)
  | onPlace (place : String) (call : PlaceCall Call)
  | register (grammar : Except GrammarError Grammar) (extensions : List String)
  | registerDefinition (text : String)
  | handler (handler : String) (plan : HandlerPlan String)
  | dropHandler (handler : String)
  | onHandler (handler : String) (call : HandlerCall)
  | token (token : String) (parent : Option String)
  | cancel (token : String)
  | stepWorker (worker : String)
  | onSink (sink : String) (call : SinkCall)

/-- What an edit is called. -/
def Edit.name : Edit → String
  | .load _ => "load"
  | .setText _ => "set_text"
  | .setLine .. => "set_line"
  | .insertLine .. => "insert_line"
  | .removeLine _ => "remove_line"

/-- What a call on a document is called. -/
def DocumentCall.name {κ : Type} : DocumentCall κ → String
  | .edit e => e.name
  | .clear => "clear_formatting"
  | .raise _ => "raise"
  | .complain .. => "log_error"
  | .annotate .. => "add_formatting"
  | .line _ => "line"
  | .describe => "info"
  | .isSame _ => "ptr_eq"
  | .snapshot _ => "snapshot"
  | .observe .. => "observe"
  | .openSink .. => "sink"
  | .openWorker .. => "worker"

/-- What a call on a place is called. -/
def PlaceCall.name {κ : Type} : PlaceCall κ → String
  | .queue .. => "queue"
  | .queueParse .. => "queue_parse"
  | .start _ => "start"
  | .pause => "pause"
  | .stop => "stop"
  | .execute _ => "execute"
  | .status => "status"

/-- What a call on a handler is called. -/
def HandlerCall.name : HandlerCall → String
  | .reparse => "reparse"
  | .enable _ => "enable"
  | .dispose => "dispose"
  | .execute _ => "execute"

/-- What a call on a sink is called. -/
def SinkCall.name : SinkCall → String
  | .matched _ => "sink_match"
  | .unmatched .. => "sink_error"
  | .aborted .. => "sink_exception"

/-- What a way of letting work run is called. -/
def DriveKind.name : DriveKind → String
  | .tick => "tick"
  | .slice => "run_slice"
  | .untilIdle => "run_until_idle"

/-- What a call is called. -/
def Call.name : Call → String
  | .document .. => "doc"
  | .onDocument _ call => call.name
  | .readSnapshot .. => "stream"
  | .unobserve _ => "unobserve"
  | .release _ => "drop_observer"
  | .drive kind _ => kind.name
  | .options => "options"
  | .advance _ => "advance"
  | .setClock _ => "set_clock"
  | .place _ => "place"
  | .dropPlace _ => "drop_place"
  | .onPlace _ call => call.name
  | .register .. => "register"
  | .registerDefinition _ => "register"
  | .handler .. => "handler"
  | .dropHandler _ => "drop_handler"
  | .onHandler _ call => call.name
  | .token .. => "token"
  | .cancel _ => "cancel"
  | .stepWorker _ => "worker_step"
  | .onSink _ call => call.name

end LiveHighlight
