import LiveHighlight.Session.Perform

/-!
# Running a session

A call is performed by doing tasks until none is left. What happened meanwhile is in the journal, in order.
-/

namespace LiveHighlight

namespace Machine

/-- A session that is asked something. -/
def ask (s : Session) (c : Call) : Machine := ⟨s, [.call c .host], none⟩

/-- Does a task. -/
def run (m : Machine) : Task → Machine
  | .call c asker => m.perform asker c
  | .answer asker reply => m.answer asker reply
  | .script calls => m.script calls
  | .raise document event => m.raise document event
  | .deliver event _ rest => m.deliver event rest
  | .notify watcher event => m.notify event watcher
  | .complain document source message => m.complain document source message
  | .clear document => m.clear document
  | .requestParse handler => m.requestParse handler
  | .dispose handler => m.dispose handler
  | .cancel token => m.put (m.session.cancel token)
  | .stop slot => m.stop slot
  | .discard w => m.discard w
  | .install slot w delay => m.install slot w delay
  | .seat slot w due => m.schedule (m.session.scheduler.install slot w due)
  | .beginRound d => m.beginRound d
  | .round r => m.round r
  | .conclude r slot generation w outcome => m.conclude r slot generation w outcome
  | .close r slot c => m.close r slot c
  | .putBack asker name w outcome => m.putBack asker name w outcome

/-- Does the first task of the agenda. -/
def step (m : Machine) : Machine :=
  match m.agenda with
  | [] => m
  | task :: rest => { m with agenda := rest }.run task

/-- Does tasks until none is left, at most so many. -/
def settle : (budget : Nat) → Machine → Machine
  | 0, m => m
  | budget + 1, m => if m.agenda.isEmpty then m else settle budget m.step

/-- More tasks than any call takes that ends in time. -/
def endless : Nat := 0x4000000000000000

end Machine

/-- Asks a session something, and gives the session afterwards and the reply. -/
def Session.call (s : Session) (c : Call) : Session × Reply :=
  let m := (Machine.ask s c).settle Machine.endless
  (m.session, m.reply.getD .crashed)

end LiveHighlight
