import LiveHighlight.Proofs.Schedule.Operations
import LiveHighlight.Session.Run

/-!
# What a task does to the work of a session

Most tasks have nothing to do with slots. `Office` is the part of a session that its work depends on, and `Turn` lists what a
task can do to it, one constructor for each kind of change, together with the tasks that it leaves. Invariants of the work are
proved by cases on turns and never open the calls themselves.
-/

namespace LiveHighlight

/-- The number of the worker whose end an entry of the journal tells. -/
def Entry.discarded? : Entry → Option Nat
  | .dropped worker _ => some worker
  | _ => none

/-- What the work of a session depends on. -/
structure Office where
  scheduler : Scheduler Worker
  /-- The workers that the host keeps under a name. -/
  workers : Directory Worker
  /-- How many workers were made. -/
  hired : Nat
  /-- The numbers of the workers that were discarded, in order. -/
  dropped : List Nat
  /-- The slots of the places that have a name. -/
  places : Directory Nat
  /-- The slots of the handlers. -/
  desks : List Nat

/-- The part of a session that its work depends on. -/
def Session.office (s : Session) : Office :=
  ⟨s.scheduler, s.names.workers, s.nextWorker, s.journal.toList.filterMap Entry.discarded?, s.names.places,
    s.handlers.map (·.slot)⟩

/-- Whether a slot belongs to a place that has a name or to a handler. -/
def Office.Refers (o : Office) (slot : Nat) : Prop := (∃ name, o.places.get? name = some slot) ∨ slot ∈ o.desks

/-- Whether a task may do things that have nothing to do with slots: it is no work, and no script that is over. -/
def Task.isQuiet : Task → Bool
  | .stop _ | .discard _ | .install .. | .seat .. | .beginRound _ | .round _ | .conclude .. | .close .. | .putBack .. => false
  | .script [] => false
  | _ => true

/-- Tasks that any other task may leave: a slot that belongs to somebody may be stopped, and no other work is begun. Nothing is
asked in the host's name, and nothing is answered that only a crash answers. -/
def Task.Light (o : Office) : Task → Prop
  | .stop slot => o.Refers slot
  | .call _ asker => asker ≠ .host
  | .answer _ reply => reply ≠ .crashed
  | .script _ => True
  | t => t.isQuiet = true

/-- The document that a worker parses. -/
def Worker.document? (w : Worker) : Option Nat :=
  match w.body with
  | .scripted .. => none
  | .parsing document _ _ => some document

/-- A worker after a step: it has made way in its script or its parse, and is the same in everything else. -/
structure Worker.Later (w w' : Worker) : Prop where
  id : w'.id = w.id
  onDrop : w'.onDrop = w.onDrop
  document : w'.document? = w.document?

/-- What a task does to the work of a session, and the tasks that it leaves. -/
inductive Turn (o : Office) : Task → Office → List Task → Prop where
  /-- Nothing. -/
  | quiet {t : Task} {new : List Task} (ht : t.isQuiet = true) (hn : ∀ x ∈ new, x.Light o) : Turn o t o new
  /-- A script is over. -/
  | silence : Turn o (.script []) o []
  /-- A place is opened. -/
  | openPlace {name : String} {asker : Asker} {new : List Task} (hn : ∀ x ∈ new, x.Light o) :
      Turn o (.call (.place name) asker)
        { o with scheduler := (o.scheduler.add name).1, places := o.places.insert name o.scheduler.slots.length } new
  /-- A place is given up. -/
  | dropPlace {name : String} {asker : Asker} {new : List Task} (hn : ∀ x ∈ new, x.Light o) :
      Turn o (.call (.dropPlace name) asker) { o with places := o.places.erase name } new
  /-- A handler gets a slot. -/
  | attach {name : String} {plan : HandlerPlan String} {asker : Asker} (label : String) {new : List Task}
      (hn : ∀ x ∈ new, x.Light o) :
      Turn o (.call (.handler name plan) asker)
        { o with scheduler := (o.scheduler.add label).1, desks := o.desks ++ [o.scheduler.slots.length] } new
  /-- A scripted worker is queued at a place. -/
  | employ {name : String} {asker : Asker} {script : Script Call} {delay slot : Nat} {new : List Task}
      (hs : o.places.get? name = some slot) (hn : ∀ x ∈ new, x.Light o) :
      Turn o (.call (.onPlace name (.queue script delay)) asker) { o with hired := o.hired + 1 }
        (.stop slot :: .install slot ⟨o.hired, .scripted script 0⟩ delay :: new)
  /-- A worker that the host kept is queued at a place. -/
  | engage {name worker : String} {asker : Asker} {delay slot : Nat} {w : Worker} {new : List Task}
      (hs : o.places.get? name = some slot) (hw : o.workers.get? worker = some w) (hn : ∀ x ∈ new, x.Light o) :
      Turn o (.call (.onPlace name (.queueParse worker delay)) asker) { o with workers := o.workers.erase worker }
        (.stop slot :: .install slot w delay :: new)
  /-- A parse is queued at a handler's slot. -/
  | request {handler slot document : Nat} {job : ParseJob} {token : CancelToken} (hs : o.desks[handler]? = some slot) :
      Turn o (.requestParse handler) { o with hired := o.hired + 1 }
        [.stop slot, .install slot ⟨o.hired, .parsing document job token⟩ 0]
  /-- The host makes a worker and keeps it. -/
  | keep {doc worker : String} {g : Except GrammarError Grammar} {options : ParseOptions} {named : Option String}
      {asker : Asker} {document : Nat} {job : ParseJob} {token : CancelToken} :
      Turn o (.call (.onDocument doc (.openWorker worker g options named)) asker)
        { o with hired := o.hired + 1, workers := o.workers.insert worker ⟨o.hired, .parsing document job token⟩ } []
  /-- The host has a worker that it keeps take a step. -/
  | rehearse {name : String} {asker : Asker} {w w' : Worker} {outcome : Outcome} {new : List Task}
      (hw : o.workers.get? name = some w) (hl : w.Later w') (hn : ∀ x ∈ new, x.Light o) :
      Turn o (.call (.stepWorker name) asker) { o with workers := o.workers.erase name }
        (new ++ [.putBack asker name w' outcome])
  /-- The host gets such a worker back. -/
  | putBack {name : String} {asker : Asker} {w : Worker} {outcome : Outcome} :
      Turn o (.putBack asker name w outcome) { o with workers := o.workers.insert name w } []
  /-- A slot is started. -/
  | start {c : Call} {asker : Asker} {slot at_ : Nat} (hs : o.Refers slot) (hb : (o.scheduler.slot slot).barred = false) :
      Turn o (.call c asker) { o with scheduler := (o.scheduler.start slot at_).1 } []
  /-- A slot is paused. -/
  | pause {c : Call} {asker : Asker} {slot : Nat} (hs : o.Refers slot) (hb : (o.scheduler.slot slot).barred = false) :
      Turn o (.call c asker) { o with scheduler := (o.scheduler.pause slot).1 } []
  /-- A slot is stopped. -/
  | stop {slot : Nat} (hb : (o.scheduler.slot slot).barred = false) :
      Turn o (.stop slot) { o with scheduler := (o.scheduler.stop slot).1 }
        ((o.scheduler.stop slot).2.toList.map .discard)
  /-- A worker is discarded. -/
  | discard {w : Worker} : Turn o (.discard w) { o with dropped := o.dropped ++ [w.id] } [.script w.onDrop]
  /-- A worker is put into an empty slot. -/
  | install {slot delay at_ : Nat} {w : Worker} (hb : (o.scheduler.slot slot).barred = false)
      (hw : (o.scheduler.slot slot).worker = none) :
      Turn o (.install slot w delay) { o with scheduler := o.scheduler.install slot w at_ } []
  /-- A worker is to be put into a slot that is taken. -/
  | evict {slot delay at_ : Nat} {w old : Worker} (hb : (o.scheduler.slot slot).barred = false)
      (hw : (o.scheduler.slot slot).worker = some old) :
      Turn o (.install slot w delay) { o with scheduler := o.scheduler.evict slot } [.discard old, .seat slot w at_]
  /-- A worker is put in where another one was taken out. -/
  | seat {slot at_ : Nat} {w : Worker} : Turn o (.seat slot w at_) { o with scheduler := o.scheduler.install slot w at_ } []
  /-- Work is let run. -/
  | drive {kind : DriveKind} {rounds : Nat} {asker : Asker} (d : Drive) :
      Turn o (.call (.drive kind rounds) asker) o [.beginRound d]
  /-- No round begins any more. -/
  | endDrive {d : Drive} : Turn o (.beginRound d) o []
  /-- A round begins. -/
  | beginRound {d : Drive} (r : Round) : Turn o (.beginRound d) o [.round r]
  /-- A round is over, and perhaps another one follows. -/
  | endRound {r : Round} {new : List Task} (hr : r.due = []) (hn : new = [] ∨ ∃ d, new = [.beginRound d]) :
      Turn o (.round r) o new
  /-- A slot is passed over, or freed because its worker is gone. -/
  | pass {r r' : Round} {slot : Nat} (hc : ∀ w g, (o.scheduler.claim slot r.now).2 ≠ .step w g) :
      Turn o (.round r) { o with scheduler := (o.scheduler.claim slot r.now).1 } [.round r']
  /-- A worker takes a step. -/
  | work {r r' : Round} {slot g : Nat} {w w' : Worker} {outcome : Outcome} {new : List Task}
      (hc : (o.scheduler.claim slot r.now).2 = .step w g) (hl : w.Later w') (hn : ∀ x ∈ new, x.Light o) :
      Turn o (.round r) { o with scheduler := (o.scheduler.claim slot r.now).1 } (new ++ [.conclude r' slot g w' outcome])
  /-- A step ends. -/
  | conclude {r : Round} {slot g now : Nat} {w : Worker} {outcome : Outcome} :
      Turn o (.conclude r slot g w outcome) { o with scheduler := (o.scheduler.conclude slot g w outcome now).1 }
        ((o.scheduler.conclude slot g w outcome now).2.discarded.toList.map .discard ++
          [.close r slot (o.scheduler.conclude slot g w outcome now).2])
  /-- A worker goes back to its slot after another one was discarded. -/
  | closeReturning {r : Round} {slot : Nat} {c : Conclusion Worker} {w : Worker} {new : List Task}
      (hc : c.returning = some w) (hn : new = [] ∨ ∃ r', new = [.round r']) :
      Turn o (.close r slot c) { o with scheduler := o.scheduler.restore slot w } new
  /-- A slot leaves the list of pending ones. -/
  | closeFinished {r : Round} {slot : Nat} {c : Conclusion Worker} {new : List Task}
      (hc : c.returning = none) (hf : c.finished = true) (hn : new = [] ∨ ∃ r', new = [.round r']) :
      Turn o (.close r slot c) { o with scheduler := o.scheduler.delist slot } new
  /-- A slot stays on the list. -/
  | closeOpen {r : Round} {slot : Nat} {c : Conclusion Worker} {new : List Task}
      (hc : c.returning = none) (hf : c.finished = false) (hn : new = [] ∨ ∃ r', new = [.round r']) :
      Turn o (.close r slot c) o new

/-- Why a turn of one task leaves another. -/
inductive Left (o : Office) : Task → Task → Prop where
  | light {t x : Task} (hx : x.Light o) : Left o t x
  | employed {name : String} {asker : Asker} {script : Script Call} {delay slot : Nat} (hs : o.places.get? name = some slot) :
      Left o (.call (.onPlace name (.queue script delay)) asker) (.install slot ⟨o.hired, .scripted script 0⟩ delay)
  | engaged {name worker : String} {asker : Asker} {delay slot : Nat} {w : Worker} (hs : o.places.get? name = some slot)
      (hw : o.workers.get? worker = some w) :
      Left o (.call (.onPlace name (.queueParse worker delay)) asker) (.install slot w delay)
  | requested {handler slot document : Nat} {job : ParseJob} {token : CancelToken} (hs : o.desks[handler]? = some slot) :
      Left o (.requestParse handler) (.install slot ⟨o.hired, .parsing document job token⟩ 0)
  | rehearsed {name : String} {asker : Asker} {w : Worker} {outcome : Outcome} :
      Left o (.call (.stepWorker name) asker) (.putBack asker name w outcome)
  | discarded {t : Task} {w : Worker} : Left o t (.discard w)
  | seated {slot delay at_ : Nat} {w : Worker} : Left o (.install slot w delay) (.seat slot w at_)
  | begun {t : Task} {d : Drive} : Left o t (.beginRound d)
  | going {t : Task} {r : Round} : Left o t (.round r)
  | stepped {r r' : Round} {slot g : Nat} {w w' : Worker} {outcome : Outcome}
      (hc : (o.scheduler.claim slot r.now).2 = .step w g) (hl : w.Later w') :
      Left o (.round r) (.conclude r' slot g w' outcome)
  | closing {r : Round} {slot g now : Nat} {w : Worker} {outcome : Outcome} :
      Left o (.conclude r slot g w outcome) (.close r slot (o.scheduler.conclude slot g w outcome now).2)

/-- Whatever a turn leaves it has a reason to leave. -/
theorem Turn.left {o o' : Office} {t : Task} {new : List Task} (h : Turn o t o' new) {x : Task} (hx : x ∈ new) : Left o t x := by
  cases h with
  | quiet _ hn | openPlace hn | dropPlace hn | attach _ hn => exact .light (hn x hx)
  | employ hs hn =>
    simp only [List.mem_cons] at hx
    rcases hx with rfl | rfl | hx
    · exact .light (.inl ⟨_, hs⟩)
    · exact .employed hs
    · exact .light (hn x hx)
  | engage hs hw hn =>
    simp only [List.mem_cons] at hx
    rcases hx with rfl | rfl | hx
    · exact .light (.inl ⟨_, hs⟩)
    · exact .engaged hs hw
    · exact .light (hn x hx)
  | request hs =>
    rcases List.mem_pair.1 hx with rfl | rfl
    · exact .light (.inr (List.mem_of_getElem? hs))
    · exact .requested hs
  | rehearse _ _ hn =>
    rcases List.mem_append.1 hx with hx | hx
    · exact .light (hn x hx)
    · obtain rfl := List.mem_singleton.1 hx
      exact .rehearsed
  | stop =>
    obtain ⟨w, -, rfl⟩ := List.mem_map.1 hx
    exact .discarded
  | discard =>
    obtain rfl := List.mem_singleton.1 hx
    exact .light trivial
  | evict =>
    rcases List.mem_pair.1 hx with rfl | rfl
    · exact .discarded
    · exact .seated
  | drive =>
    obtain rfl := List.mem_singleton.1 hx
    exact .begun
  | beginRound _ | pass =>
    obtain rfl := List.mem_singleton.1 hx
    exact .going
  | work hc hl hn =>
    rcases List.mem_append.1 hx with hx | hx
    · exact .light (hn x hx)
    · obtain rfl := List.mem_singleton.1 hx
      exact .stepped hc hl
  | conclude =>
    rcases List.mem_append.1 hx with hx | hx
    · obtain ⟨w, -, rfl⟩ := List.mem_map.1 hx
      exact .discarded
    · obtain rfl := List.mem_singleton.1 hx
      exact .closing
  | endRound _ hn =>
    rcases hn with rfl | ⟨d, rfl⟩
    · cases hx
    · obtain rfl := List.mem_singleton.1 hx
      exact .begun
  | closeReturning _ hn | closeFinished _ _ hn | closeOpen _ _ hn =>
    rcases hn with rfl | ⟨r', rfl⟩
    · cases hx
    · obtain rfl := List.mem_singleton.1 hx
      exact .going
  | _ => cases hx

end LiveHighlight
