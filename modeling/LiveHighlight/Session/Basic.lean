import LiveHighlight.Document.Subscriptions
import LiveHighlight.Session.Call
import LiveHighlight.Session.Reply

/-!
# Sessions

Everything that a host has set up: documents with their watchers, a scheduler with its places, parse handlers, registered
languages, a clock, and the names by which the host knows them. A thing keeps its number when its name goes over to another
one, so what holds on to it still finds it.
-/

namespace LiveHighlight

/-- A token by which parses are cancelled: its number, then those of the tokens it was derived from. -/
structure CancelToken where
  lineage : List Nat
  deriving DecidableEq, Repr, Inhabited

/-- What a worker does. -/
inductive WorkerBody where
  /-- It plays a script, of which it began so many steps. -/
  | scripted (script : Script Call) (begun : Nat)
  /-- It parses a document. -/
  | parsing (document : Nat) (job : ParseJob) (token : CancelToken)

/-- A worker. Its number is given once. -/
structure Worker where
  id : Nat
  body : WorkerBody

/-- What a worker is called; only a scripted one has a name. -/
def Worker.name (w : Worker) : Option String :=
  match w.body with
  | .scripted script _ => some script.name
  | .parsing .. => none

/-- What the end of a worker calls for. -/
def Worker.onDrop (w : Worker) : List Call :=
  match w.body with
  | .scripted script _ => script.onDrop
  | .parsing .. => []

/-- Who watches a document: an observer or a parse handler, by number. -/
inductive Watcher where
  | observer (id : Nat)
  | handler (id : Nat)
  deriving DecidableEq, Repr

/-- A document: its lines, its watchers and its error site, which is silent, or records and makes calls. -/
structure Document where
  buffer : Buffer
  subscriptions : Subscriptions Watcher
  site : Option (List Call)
  deriving Inhabited

/-- An observer of a document. -/
structure Observer where
  name : String
  document : Nat
  subscription : Nat
  /-- Whether the host holds on to it. -/
  held : Bool
  reaction : Reaction Call

/-- A parse handler of a document. -/
structure Handler where
  document : Nat
  grammar : Grammar
  options : ParseOptions
  slot : Nat
  enabled : Bool
  /-- The number of its subscription; none once it is disposed of. -/
  subscription : Option Nat
  token : CancelToken

/-- Whether a handler is disposed of. -/
def Handler.isDisposed (h : Handler) : Bool := h.subscription.isNone

/-- What a host's names stand for: things, or the numbers of things. -/
structure Names where
  documents : Directory Nat
  observers : Directory Nat
  snapshots : Directory LineStream
  places : Directory Nat
  handlers : Directory Nat
  tokens : Directory CancelToken
  workers : Directory Worker
  sinks : Directory (Nat × Sink)
  deriving Inhabited

/-- Everything that a host has set up. -/
structure Session where
  scheduler : Scheduler Worker
  /-- The time by the session's clock. -/
  now : Nat
  languages : Languages
  documents : List Document
  observers : List Observer
  handlers : List Handler
  /-- The numbers of the tokens that were cancelled. -/
  cancelled : List Nat
  nextToken : Nat
  nextWorker : Nat
  names : Names
  journal : Array Entry
  deriving Inhabited

namespace Session

/-- A session in which nothing is set up. -/
def new (options : SchedulerOptions) : Session :=
  ⟨.new options, 0, .empty, [], [], [], [], 0, 0, default, #[]⟩

/-- Writes something down. -/
def note (s : Session) (e : Entry) : Session := { s with journal := s.journal.push e }

/-- The document with a number; of numbers not given yet, an empty one. -/
def document (s : Session) (id : Nat) : Document := s.documents[id]?.getD default

/-- Changes a document. -/
def updateDocument (s : Session) (id : Nat) (f : Document → Document) : Session :=
  { s with documents := s.documents.modify id f }

/-- Gives a document other lines. -/
def setBuffer (s : Session) (id : Nat) (b : Buffer) : Session := s.updateDocument id ({ · with buffer := b })

/-- Changes a handler. -/
def updateHandler (s : Session) (id : Nat) (f : Handler → Handler) : Session :=
  { s with handlers := s.handlers.modify id f }

/-- Subscribes a watcher to a document, and gives the number of the subscription. -/
def subscribe (s : Session) (id : Nat) (w : Watcher) : Session × Nat :=
  let (subscriptions, number) := (s.document id).subscriptions.add w
  (s.updateDocument id ({ · with subscriptions }), number)

/-- Ends a subscription to a document, and says whether there was one. -/
def unsubscribe (s : Session) (id number : Nat) : Session × Bool :=
  let (subscriptions, found) := (s.document id).subscriptions.remove number
  (s.updateDocument id ({ · with subscriptions }), found)

/-- A token that nothing has cancelled yet, derived from others. -/
def freshToken (s : Session) (parents : List Nat) : Session × CancelToken :=
  ({ s with nextToken := s.nextToken + 1 }, ⟨s.nextToken :: parents⟩)

/-- Whether a token or one that it was derived from is cancelled. -/
def isCancelled (s : Session) (t : CancelToken) : Bool := t.lineage.any (· ∈ s.cancelled)

/-- Cancels a token and all that are derived from it. -/
def cancel (s : Session) (t : CancelToken) : Session := { s with cancelled := t.lineage.head?.toList ++ s.cancelled }

/-- A worker with a number of its own. -/
def freshWorker (s : Session) (body : WorkerBody) : Session × Worker :=
  ({ s with nextWorker := s.nextWorker + 1 }, ⟨s.nextWorker, body⟩)

/-- A parse worker for the text that a document has now. -/
def parseWorker (s : Session) (document : Nat) (g : Grammar) (o : ParseOptions) (t : CancelToken) : Session × Worker :=
  s.freshWorker (.parsing document (.start g (s.document document).buffer o) t)

end Session

end LiveHighlight
