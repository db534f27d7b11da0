import LiveHighlight.Session.Basic

/-!
# Tasks

What a session still has to do before it can answer. An operation that hands control to code of the host, such as telling
watchers or discarding a worker, is cut into tasks there, so that what the code does comes between two of them.
-/

namespace LiveHighlight

/-- Who waits for a reply. -/
inductive Asker where
  | host
  /-- Code that the host lent. The journal shows the reply under the name of the call. -/
  | script (call : String)
  deriving DecidableEq, Repr

/-- Work being let run. -/
structure Drive where
  asker : Asker
  kind : DriveKind
  /-- When it began. -/
  started : Nat
  /-- The number of rounds that may still begin. -/
  left : Nat
  /-- The steps in the rounds that are over. -/
  ran : Nat
  deriving DecidableEq, Repr

/-- What a drive answers, given the wait that its last round found. -/
def Drive.reply (d : Drive) (wait : Option Nat) : Reply :=
  match d.kind with
  | .untilIdle => .ran d.ran
  | _ => .report ⟨d.ran, wait⟩

/-- A round under way. -/
structure Round where
  drive : Drive
  /-- When it began; what becomes due later waits for the next round. -/
  now : Nat
  /-- The slots still to be looked at. -/
  due : List Nat
  /-- The steps so far. -/
  ran : Nat
  deriving DecidableEq, Repr

/-- Something that a session still has to do. -/
inductive Task where
  | call (c : Call) (asker : Asker)
  | answer (asker : Asker) (reply : Reply)
  /-- Makes calls in order. -/
  | script (calls : List Call)
  /-- Tells all watchers of a document that are alive now. -/
  | raise (document : Nat) (event : BufferEvent)
  /-- Goes on telling watchers. The one told last is kept alive until its reaction is over, the others as well. -/
  | deliver (event : BufferEvent) (told : Option Watcher) (rest : List Watcher)
  | notify (watcher : Watcher) (event : BufferEvent)
  /-- Tells a document's error site. -/
  | complain (document : Nat) (source message : String)
  | clear (document : Nat)
  /-- Queues a parse of the text as it is then, in place of the one that is waiting. -/
  | requestParse (handler : Nat)
  | dispose (handler : Nat)
  | cancel (token : CancelToken)
  | stop (slot : Nat)
  | discard (worker : Worker)
  /-- Puts a worker into a slot, over another one if need be. -/
  | install (slot : Nat) (worker : Worker) (delay : Nat)
  /-- Ends what `install` began when the worker it evicts is discarded. -/
  | seat (slot : Nat) (worker : Worker) (at_ : Nat)
  | beginRound (d : Drive)
  | round (r : Round)
  /-- Ends a step. -/
  | conclude (r : Round) (slot generation : Nat) (worker : Worker) (outcome : Outcome)
  /-- Ends a step after its worker is discarded. -/
  | close (r : Round) (slot : Nat) (c : Conclusion Worker)
  /-- Gives a worker that the host stepped by itself back to its name. -/
  | putBack (asker : Asker) (name : String) (worker : Worker) (outcome : Outcome)

/-- Whether a task keeps a watcher alive. -/
def Task.keeps (w : Watcher) : Task → Bool
  | .deliver _ told rest => decide (told = some w ∨ w ∈ rest)
  | _ => false

end LiveHighlight
