import LiveHighlight.Session.Task

/-!
# The machine of a session

A session at work: an agenda of tasks, done from the front. A task does one thing that nothing can interrupt and puts what
follows from it on the agenda before everything else. So the agenda is a stack of what was interrupted, and every state that
code of the host can see is the state of the machine when that code's calls are on top.
-/

namespace LiveHighlight

/-- The act that a script comes to in a step. -/
def Script.act {κ : Type} (s : Script κ) (number : Nat) : Act κ :=
  s.acts[min number (s.acts.length - 1)]?.getD ⟨[], .ok .finished⟩

/-- Whether a worker is done for good. -/
def Worker.isDone (w : Worker) : Bool :=
  match w.body with
  | .scripted .. => false
  | .parsing _ job _ => job.isDone

/-- A session at work. -/
structure Machine where
  session : Session
  agenda : List Task
  /-- The reply to the host, once it is known. -/
  reply : Option Reply

namespace Machine

/-- Puts tasks before everything else. -/
def push (m : Machine) (tasks : List Task) : Machine := { m with agenda := tasks ++ m.agenda }

/-- The machine with another session. -/
def put (m : Machine) (s : Session) : Machine := { m with session := s }

/-- The machine with another scheduler. -/
def schedule (m : Machine) (s : Scheduler Worker) : Machine := m.put { m.session with scheduler := s }

/-- Gives up: the host is told, and nothing else happens any more. -/
def crash (m : Machine) : Machine := { m with agenda := [], reply := some .crashed }

/-- Answers a call. -/
def answer (m : Machine) (asker : Asker) (r : Reply) : Machine :=
  match asker with
  | .host => { m with reply := some r }
  | .script call => m.put (m.session.note (.called call r))

/-- Goes on unless the slot is barred. -/
def onSlot (m : Machine) (slot : Nat) (go : Machine) : Machine :=
  if (m.session.scheduler.slot slot).barred then m.crash else go

/-- Whether a watcher is alive: a subscribed handler always is, an observer while the host holds on to it or an event is on
its way to it. -/
def isAlive (m : Machine) : Watcher → Bool
  | .handler _ => true
  | .observer id => (m.session.observers[id]?.any (·.held)) || m.agenda.any (·.keeps (.observer id))

/-! ## Documents -/

/-- Makes the first of some calls and leaves the others for later. -/
def script (m : Machine) : List Call → Machine
  | [] => m
  | c :: rest => m.push [.call c (.script c.name), .script rest]

/-- Clears away the watchers that are gone, then sees to the others in the order of their subscriptions. -/
def raise (m : Machine) (document : Nat) (event : BufferEvent) : Machine :=
  let live := (m.session.document document).subscriptions.prune m.isAlive
  (m.put (m.session.updateDocument document ({ · with subscriptions := live }))).push [.deliver event none live.watchers]

/-- Tells the next watcher. -/
def deliver (m : Machine) (event : BufferEvent) : List Watcher → Machine
  | [] => m
  | w :: rest => m.push [.notify w event, .deliver event (some w) rest]

/-- Tells one watcher. An observer's reaction is used up before it begins; a handler asks for a parse when the text
changed. -/
def notify (m : Machine) (event : BufferEvent) : Watcher → Machine
  | .observer id =>
    match m.session.observers[id]? with
    | none => m
    | some o =>
      let m := m.put (m.session.note (.heard o.name event))
      if o.reaction.answers event then
        let spent (o : Observer) : Observer := { o with reaction := { o.reaction with times := o.reaction.times - 1 } }
        (m.put { m.session with observers := m.session.observers.modify id spent }).push [.script o.reaction.calls]
      else m
  | .handler id =>
    match m.session.handlers[id]? with
    | none => m
    | some h => if h.enabled ∧ event.requestsParse then m.push [.requestParse id] else m

/-- Tells an error site, if it is one that records. -/
def complain (m : Machine) (document : Nat) (source message : String) : Machine :=
  match (m.session.document document).site with
  | none => m
  | some calls => (m.put (m.session.note (.complaint source message))).push [.script calls]

/-- Takes all annotations off a document. -/
def clear (m : Machine) (document : Nat) : Machine :=
  m.put (m.session.setBuffer document (m.session.document document).buffer.clear)

/-! ## Handlers -/

/-- Queues a parse of the text as it is now, unless the handler is cancelled. -/
def requestParse (m : Machine) (handler : Nat) : Machine :=
  match m.session.handlers[handler]? with
  | none => m
  | some h =>
    if m.session.isCancelled h.token then m
    else
      let (session, worker) := m.session.parseWorker h.document h.grammar h.options h.token
      (m.put session).push [.stop h.slot, .install h.slot worker 0]

/-- Ends a handler's subscription, its work, and what of its work is under way. The second time nothing happens. -/
def dispose (m : Machine) (handler : Nat) : Machine :=
  match m.session.handlers[handler]? with
  | none => m
  | some h =>
    match h.subscription with
    | none => m
    | some number =>
      let session := (m.session.unsubscribe h.document number).1.updateHandler handler ({ · with subscription := none })
      (m.put session).push [.stop h.slot, .cancel h.token]

/-! ## Work -/

/-- Frees a slot; the worker it held is discarded once it is out of the slot. -/
def stop (m : Machine) (slot : Nat) : Machine :=
  m.onSlot slot
    (let (scheduler, worker) := m.session.scheduler.stop slot
     (m.schedule scheduler).push (worker.toList.map .discard))

/-- Discards a worker; its last calls are made now. -/
def discard (m : Machine) (w : Worker) : Machine :=
  (m.put (m.session.note (.dropped w.id w.name))).push [.script w.onDrop]

/-- Puts a worker into a slot with an appointment after a delay. -/
def install (m : Machine) (slot : Nat) (w : Worker) (delay : Nat) : Machine :=
  let due := m.session.now + delay
  m.onSlot slot
    (match (m.session.scheduler.slot slot).worker with
     | none => m.schedule (m.session.scheduler.install slot w due)
     | some old => (m.schedule (m.session.scheduler.evict slot)).push [.discard old, .seat slot w due])

/-- Lets a worker take a step: what it does, then the task that sees to what the step came to. -/
def work (m : Machine) (w : Worker) (next : Worker → Outcome → Task) : Machine :=
  match w.body with
  | .scripted script begun =>
    let act := script.act begun
    (m.put (m.session.note (.stepped w.id script.name begun))).push
      [.script act.calls, next ⟨w.id, .scripted script (begun + 1)⟩ act.outcome]
  | .parsing document job token =>
    let result := job.step (m.session.isCancelled token) (m.session.document document).buffer
    let session := (m.session.note (.parsed w.id job.phase)).setBuffer document result.buffer
    (m.put session).push
      (result.complaint.toList.map (.complain document "parser") ++
        (if result.announces then [.raise document .formatted] else []) ++
        [next ⟨w.id, .parsing document result.job token⟩ (.ok result.next)])

/-- Begins a round with the slots that are due, if a round may still begin. -/
def beginRound (m : Machine) (d : Drive) : Machine :=
  if d.left = 0 then m.answer d.asker (d.reply none)
  else if m.session.scheduler.anyBarred then m.crash
  else m.push [.round ⟨{ d with left := d.left - 1 }, m.session.now, m.session.scheduler.due m.session.now, 0⟩]

/-- Whether another round follows one of so many steps. -/
def goesOn (m : Machine) (d : Drive) (ran : Nat) : Bool :=
  decide (ran ≠ 0 ∧ d.left ≠ 0 ∧
    (d.kind = .slice → m.session.now - d.started < m.session.scheduler.options.timeSlice))

/-- Ends a round and lets the next one begin, or answers. -/
def endRound (m : Machine) (r : Round) : Machine :=
  let d := { r.drive with ran := r.drive.ran + r.ran }
  if m.goesOn d r.ran then m.push [.beginRound d]
  else m.answer d.asker (d.reply (m.session.scheduler.nextWait m.session.now))

/-- Sees to the next slot of a round. A slot that is no longer due is passed over. -/
def round (m : Machine) (r : Round) : Machine :=
  match r.due with
  | [] => m.endRound r
  | slot :: rest =>
    let r := { r with due := rest }
    match m.session.scheduler.claim slot r.now with
    | (scheduler, .step w generation) =>
      (m.schedule scheduler).work w fun w outcome => .conclude r slot generation w outcome
    | (scheduler, _) => (m.schedule scheduler).push [.round r]

/-- Ends a step: the worker goes back to its slot or is discarded, and only after that the slot is closed. -/
def conclude (m : Machine) (r : Round) (slot generation : Nat) (w : Worker) (outcome : Outcome) : Machine :=
  let (scheduler, c) := m.session.scheduler.conclude slot generation w outcome m.session.now
  (m.schedule scheduler).push (c.discarded.toList.map .discard ++ [.close r slot c])

/-- Takes a slot whose work is over off the list of pending ones and goes on with the round. A fatal fault ends it. -/
def close (m : Machine) (r : Round) (slot : Nat) (c : Conclusion Worker) : Machine :=
  let m := match c.returning with
    | some w => m.schedule (m.session.scheduler.restore slot w)
    | none => if c.finished then m.schedule (m.session.scheduler.delist slot) else m
  match c.fault with
  | some (.fatal reason) => m.answer r.drive.asker (.failed (.fatal reason))
  | _ => m.push [.round { r with ran := r.ran + 1 }]

/-- The machine once a slot is settled after a step: the worker is back in it, it is off the list, or nothing was to be done. -/
inductive Tidied (m : Machine) (slot : Nat) (c : Conclusion Worker) : Machine → Prop where
  | returned {w : Worker} (hc : c.returning = some w) : Tidied m slot c (m.schedule (m.session.scheduler.restore slot w))
  | finished (hc : c.returning = none) (hf : c.finished = true) : Tidied m slot c (m.schedule (m.session.scheduler.delist slot))
  | unfinished (hc : c.returning = none) (hf : c.finished = false) : Tidied m slot c m

/-- Closing a step settles its slot, and then a fatal fault is answered or the round goes on. -/
theorem close_cases (m : Machine) (r : Round) (slot : Nat) (c : Conclusion Worker) : ∃ m', m.Tidied slot c m' ∧
    ((∃ reason, c.fault = some (.fatal reason) ∧ m.close r slot c = m'.answer r.drive.asker (.failed (.fatal reason))) ∨
      (∀ reason, c.fault ≠ some (.fatal reason)) ∧ m.close r slot c = m'.push [.round { r with ran := r.ran + 1 }]) := by
  -- Once the slot is settled, what is left is to close a step that has nothing to settle.
  obtain ⟨m', hs, hm⟩ : ∃ m', m.Tidied slot c m' ∧
      m.close r slot c = m'.close r slot { c with returning := none, finished := false } := by
    unfold close
    cases hc : c.returning with
    | some w => exact ⟨_, .returned hc, rfl⟩
    | none =>
      cases hf : c.finished with
      | true => exact ⟨_, .finished hc hf, rfl⟩
      | false => exact ⟨_, .unfinished hc hf, rfl⟩
  refine ⟨m', hs, ?_⟩
  rw [hm, close]
  cases hf : c.fault with
  | none => exact .inr ⟨nofun, rfl⟩
  | some fault =>
    cases fault with
    | recoverable => exact .inr ⟨nofun, rfl⟩
    | fatal reason => exact .inl ⟨reason, rfl, rfl⟩

/-- Gives a worker back to its name and answers. -/
def putBack (m : Machine) (asker : Asker) (name : String) (w : Worker) (outcome : Outcome) : Machine :=
  let names := { m.session.names with workers := m.session.names.workers.insert name w }
  (m.put { m.session with names }).answer asker
    (match outcome with
     | .ok step => .stepped step w.isDone
     | .error fault => .failed fault)

end Machine

end LiveHighlight
