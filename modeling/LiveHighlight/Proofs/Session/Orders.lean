import LiveHighlight.Proofs.Session.RoundProgress
import LiveHighlight.Proofs.Session.DocumentChangesOfTasks

/-!
# Orders

Stopping a slot and asking a handler for a parse are orders: whoever gives one has it carried out next. So behind the first task
of an agenda there are none (`Course.unhurried`), and whoever finds one there knows the task that was done just before, and why it
gave the order (`Ordered`, `Course.ordered`).
-/

namespace LiveHighlight

/-- Whether a task stops a slot or asks a handler for a parse. -/
def Task.isOrder : Task → Bool
  | .stop _ | .requestParse _ => true
  | _ => false

/-- Why a task leaves an order. -/
inductive Ordered (s : Session) : Task → Task → Prop where
  /-- The host asks for a parse. -/
  | reparse {name : String} {id : Nat} {h : Handler} {asker : Asker} (hn : s.names.handlers.get? name = some id)
      (hh : s.handlers[id]? = some h) (he : h.enabled = true) :
      Ordered s (.call (.onHandler name .reparse) asker) (.requestParse id)
  /-- A handler is enabled. -/
  | enable {name : String} {id : Nat} {asker : Asker} (hn : s.names.handlers.get? name = some id) :
      Ordered s (.call (.onHandler name (.enable true)) asker) (.requestParse id)
  /-- A handler that is enabled is told that the text changed. -/
  | told {id : Nat} {h : Handler} {event : BufferEvent} (hh : s.handlers[id]? = some h) (he : h.enabled = true)
      (hp : event.requestsParse = true) : Ordered s (.notify (.handler id) event) (.requestParse id)
  /-- A handler queues a parse. -/
  | request {id : Nat} {h : Handler} (hh : s.handlers[id]? = some h) (hc : s.isCancelled h.token = false) :
      Ordered s (.requestParse id) (.stop h.slot)
  /-- A handler is disabled. -/
  | disable {name : String} {id : Nat} {h : Handler} {asker : Asker} (hn : s.names.handlers.get? name = some id)
      (hh : s.handlers[id]? = some h) : Ordered s (.call (.onHandler name (.enable false)) asker) (.stop h.slot)
  /-- The host has the work of a handler stopped. -/
  | command {name : String} {id command : Nat} {h : Handler} {asker : Asker} (hn : s.names.handlers.get? name = some id)
      (hh : s.handlers[id]? = some h) (hc : WorkCommand.ofId? command = some .stop) :
      Ordered s (.call (.onHandler name (.execute command)) asker) (.stop h.slot)
  /-- A handler is disposed of. -/
  | dispose {id : Nat} {h : Handler} (hh : s.handlers[id]? = some h) : Ordered s (.dispose id) (.stop h.slot)
  /-- A place is stopped, given other work, or given up. -/
  | place {name : String} {slot : Nat} {c : Call} {asker : Asker} (hp : s.names.places.get? name = some slot) :
      Ordered s (.call c asker) (.stop slot)

/-- `m'` comes from `m` by leaving tasks of which at most the first is an order, for a reason that `Ordered` lists, or by a
crash. -/
def Machine.Orders (m : Machine) (t : Task) (m' : Machine) : Prop :=
  m'.agenda = [] ∨ ∃ new, m'.agenda = new ++ m.agenda ∧ (∀ x ∈ new.tail, x.isOrder = false) ∧
    ∀ x, new.head? = some x → x.isOrder = true → Ordered m.session t x

namespace OrderAux

open RoundProgressAux PageAux

variable {m m' : Machine} {t x : Task} {new : List Task}

/-- No order is left. -/
theorem orders_none (ha : m'.agenda = new ++ m.agenda) (hn : ∀ x ∈ new, x.isOrder = false) : m.Orders t m' := by
  refine .inr ⟨new, ha, fun x hx => hn x (List.mem_of_mem_tail hx), ?_⟩
  intro x hx ho
  rw [hn x (List.mem_of_head? hx)] at ho
  cases ho

/-- An order is left, and behind it nothing of the kind. -/
theorem orders_one (ha : m'.agenda = x :: new ++ m.agenda) (hn : ∀ x ∈ new, x.isOrder = false) (hx : Ordered m.session t x) :
    m.Orders t m' := by
  refine .inr ⟨x :: new, ha, hn, ?_⟩
  intro y hy _
  exact Option.some.inj hy ▸ hx

theorem orders_nothing (ha : m'.agenda = m.agenda) : m.Orders t m' := orders_none (List.nil_append m.agenda ▸ ha) (by simp)

theorem orders_answer (ha : m'.agenda = m.agenda) (asker : Asker) (r : Reply) : m.Orders t (m'.answer asker r) :=
  orders_nothing ((agenda_answer m' asker r).trans ha)

theorem orders_said {asker : Asker} {r : Reply} : m.Orders t (m.answer asker r) := orders_answer rfl asker r

/-- The session is another one, and an answer is given. -/
theorem orders_put {s : Session} {asker : Asker} {r : Reply} : m.Orders t ((m.put s).answer asker r) :=
  orders_answer (show (m.put s).agenda = m.agenda from rfl) asker r

/-- Tasks are left that are no orders. -/
theorem orders_push {s : Session} (hn : ∀ x ∈ new, x.isOrder = false) : m.Orders t ((m.put s).push new) := orders_none rfl hn

/-- An order is left, and other tasks behind it. -/
theorem orders_give {s : Session} (hx : Ordered m.session t x) (hn : ∀ x ∈ new, x.isOrder = false) :
    m.Orders t ((m.put s).push (x :: new)) := orders_one rfl hn hx

theorem orders_find {α : Type} {asker : Asker} {found : Option α} {what : Missing} {go : α → Machine}
    (h : ∀ a, found = some a → m.Orders t (go a)) : m.Orders t (m.find asker found what go) := by
  cases found with
  | none => exact orders_said
  | some a => exact h a rfl

theorem orders_withGrammar {α : Type} {asker : Asker} {made : Except GrammarError α} {go : α → Machine}
    (h : ∀ a, m.Orders t (go a)) : m.Orders t (m.withGrammar asker made go) := by
  cases made with
  | error e => exact orders_said
  | ok a => exact h a

theorem orders_onSlot {slot : Nat} {go : Machine} (h : m.Orders t go) : m.Orders t (m.onSlot slot go) := by
  unfold Machine.onSlot
  split
  · exact .inl rfl
  · exact h

/-! ### Calls -/

theorem agenda_openWorker (m : Machine) (id : Nat) (name : String) (g : Grammar) (o : ParseOptions) (token : Option String) :
    (m.openWorker id name g o token).agenda = m.agenda := by
  unfold Machine.openWorker
  split
  rfl

theorem orders_onDocument (m : Machine) (asker : Asker) (id : Nat) (call : DocumentCall Call) :
    m.Orders t (m.onDocument asker id call) := by
  cases call with
  | edit e =>
    simp only [Machine.onDocument, Machine.edit]
    split
    · exact orders_said
    · exact orders_push (by simp [Task.isOrder])
  | raise | complain => exact orders_push (by simp [Task.isOrder])
  | annotate =>
    simp only [Machine.onDocument]
    split
    · exact orders_said
    · exact orders_put
  | line =>
    simp only [Machine.onDocument]
    split <;> exact orders_said
  | describe => exact orders_said
  | clear | snapshot | openSink => exact orders_put
  | isSame other => exact orders_find fun _ _ => orders_said
  | observe observer reaction =>
    have ha : (m.observe id observer reaction).agenda = m.agenda := agenda_letGo m observer
    exact orders_answer ha asker _
  | openWorker worker grammar options token =>
    exact orders_withGrammar fun g => orders_answer (agenda_openWorker m id worker g options token) asker _

theorem orders_onSink (m : Machine) (asker : Asker) (id : Nat) (sink : Sink) (call : SinkCall) :
    m.Orders t (m.onSink asker id sink call) := by
  have write (event : Event) : m.Orders t (m.write asker id sink event) := by
    unfold Machine.write
    split
    · exact orders_said
    · exact orders_put
  cases call with
  | matched | unmatched => exact orders_withGrammar fun _ => write _
  | aborted => exact orders_push (by simp [Task.isOrder])

/-- A command stops a slot at most. -/
theorem orders_execute {slot command : Nat} (asker : Asker)
    (h : WorkCommand.ofId? command = some .stop → Ordered m.session t (.stop slot)) :
    m.Orders t (m.execute asker slot command) := by
  unfold Machine.execute
  split
  · exact orders_said
  · exact orders_onSlot orders_put
  · exact orders_onSlot orders_put
  · next hc => exact orders_give (h hc) (by simp [Task.isOrder])

theorem orders_onPlace {slot : Nat} (asker : Asker) (h : Ordered m.session t (.stop slot)) (call : PlaceCall Call) :
    m.Orders t (m.onPlace asker slot call) := by
  have queue {s : Session} {w : Worker} {delay : Nat} : m.Orders t ((m.put s).queue asker slot w delay) :=
    orders_give h (by simp [Task.isOrder])
  cases call with
  | queue => exact queue
  | queueParse => exact orders_find fun _ _ => queue
  | start | pause => exact orders_onSlot orders_put
  | status => exact orders_onSlot orders_said
  | stop => exact orders_give h (by simp [Task.isOrder])
  | execute command => exact orders_execute asker fun _ => h

theorem orders_openPlace (m : Machine) (asker : Asker) (c : Call) (name : String) :
    m.Orders (.call c asker) (m.openPlace asker name) := by
  unfold Machine.openPlace
  cases hn : m.session.names.places.get? name with
  | none => exact orders_push (by simp [Task.isOrder])
  | some slot => exact orders_give (.place hn) (by simp [Task.isOrder])

theorem orders_dropPlace (m : Machine) (asker : Asker) (c : Call) (name : String) :
    m.Orders (.call c asker) (m.dropPlace asker name) := by
  unfold Machine.dropPlace
  split
  · exact orders_said
  · next hn => exact orders_give (.place hn) (by simp [Task.isOrder])

theorem orders_makeHandler (m : Machine) (asker : Asker) (name : String) (p : HandlerPlan Nat) :
    m.Orders t (m.makeHandler asker name p) := by
  unfold Machine.makeHandler
  split
  · exact orders_said
  · exact orders_said
  · refine orders_none rfl ?_
    intro x hx
    rcases List.mem_append.1 hx with hx | hx
    · obtain ⟨id, -, rfl⟩ := List.mem_map.1 hx
      rfl
    · obtain rfl := List.mem_singleton.1 hx
      rfl

theorem orders_onHandler (m : Machine) (asker : Asker) {name : String} {id : Nat} {h : Handler}
    (hn : m.session.names.handlers.get? name = some id) (hh : m.session.handlers[id]? = some h) (call : HandlerCall) :
    m.Orders (.call (.onHandler name call) asker) (m.onHandler asker id h call) := by
  cases call with
  | reparse =>
    simp only [Machine.onHandler]
    split
    · next he => exact orders_give (.reparse hn hh he) (by simp [Task.isOrder])
    · exact orders_push (by simp [Task.isOrder])
  | enable on =>
    simp only [Machine.onHandler]
    split
    · exact orders_said
    · cases on with
      | true => exact orders_give (.enable hn) (by simp [Task.isOrder])
      | false => exact orders_give (.disable hn hh) (by simp [Task.isOrder])
  | dispose => exact orders_push (by simp [Task.isOrder])
  | execute command => exact orders_execute asker (.command hn hh)

theorem orders_dropHandler (m : Machine) (asker : Asker) (name : String) : m.Orders t (m.dropHandler asker name) := by
  unfold Machine.dropHandler
  split
  · exact orders_said
  · exact orders_push (by simp [Task.isOrder])

/-- A step of a worker leaves no order, if what sees to its outcome is none. -/
theorem orders_work {s : Session} {w : Worker} {next : Worker → Outcome → Task}
    (hn : ∀ w outcome, (next w outcome).isOrder = false) : m.Orders t ((m.put s).work w next) := by
  unfold Machine.work
  split
  · exact orders_push (List.forall_mem_cons.2 ⟨rfl, List.forall_mem_singleton.2 (hn _ _)⟩)
  · refine orders_none rfl ?_
    intro x hx
    simp only [List.mem_append, List.mem_map, List.mem_singleton] at hx
    rcases hx with (⟨message, -, rfl⟩ | hx) | rfl
    · rfl
    · split at hx
      · obtain rfl := List.mem_singleton.1 hx
        rfl
      · cases hx
    · exact hn _ _

theorem orders_perform (m : Machine) (asker : Asker) (c : Call) : m.Orders (.call c asker) (m.perform asker c) := by
  cases c with
  | options => exact orders_said
  | document | advance | setClock => exact orders_put
  | onDocument doc call => exact orders_find fun id _ => orders_onDocument m asker id call
  | readSnapshot => exact orders_find fun _ _ => orders_said
  | unobserve | cancel => exact orders_find fun _ _ => orders_put
  | release name => exact orders_answer (agenda_letGo m name) asker _
  | drive => exact orders_push (by simp [Task.isOrder])
  | place name => exact orders_openPlace m asker _ name
  | dropPlace name => exact orders_dropPlace m asker _ name
  | onPlace name call => exact orders_find fun slot hp => orders_onPlace asker (.place hp) call
  | register => exact orders_withGrammar fun _ => orders_withGrammar fun _ => orders_put
  | registerDefinition => exact orders_withGrammar fun _ => orders_put
  | handler name plan =>
    simp only [Machine.perform]
    split
    · exact orders_makeHandler m asker name _
    · exact orders_find fun _ _ => orders_makeHandler m asker name _
  | dropHandler name => exact orders_dropHandler m asker name
  | onHandler name call => exact orders_find fun id hn => orders_find fun h hh => orders_onHandler m asker hn hh call
  | token name parent =>
    cases parent with
    | none => exact orders_put
    | some parent => exact orders_find fun _ _ => orders_put
  | stepWorker => exact orders_find fun w _ => orders_work fun _ _ => rfl
  | onSink name call => exact orders_find fun found _ => orders_onSink m asker found.1 found.2 call

/-! ### Other tasks -/

theorem orders_notify (m : Machine) (event : BufferEvent) (watcher : Watcher) :
    m.Orders (.notify watcher event) (m.notify event watcher) := by
  cases watcher with
  | observer id =>
    simp only [Machine.notify]
    split
    · exact orders_nothing rfl
    · split
      · exact orders_push (by simp [Task.isOrder])
      · exact orders_nothing rfl
  | handler id =>
    simp only [Machine.notify]
    split
    · exact orders_nothing rfl
    · next h hh =>
      split
      · next he => exact orders_give (.told hh he.1 he.2) (by simp)
      · exact orders_nothing rfl

theorem orders_requestParse (m : Machine) (id : Nat) : m.Orders (.requestParse id) (m.requestParse id) := by
  unfold Machine.requestParse
  split
  · exact orders_nothing rfl
  · next h hh =>
    split
    · exact orders_nothing rfl
    · next hc => exact orders_give (.request hh (by simpa using hc)) (by simp [Task.isOrder])

theorem orders_dispose (m : Machine) (id : Nat) : m.Orders (.dispose id) (m.dispose id) := by
  unfold Machine.dispose
  split
  · exact orders_nothing rfl
  · next h hh =>
    split
    · exact orders_nothing rfl
    · exact orders_give (.dispose hh) (by simp [Task.isOrder])

theorem orders_round (m : Machine) (r : Round) : m.Orders t (m.round r) := by
  unfold Machine.round
  split
  · unfold Machine.endRound
    dsimp only
    split
    · exact orders_push (by simp [Task.isOrder])
    · exact orders_said
  · dsimp only
    split
    · exact orders_work fun _ _ => rfl
    · exact orders_push (by simp [Task.isOrder])

theorem orders_close (m : Machine) (r : Round) (slot : Nat) (c : Conclusion Worker) : m.Orders t (m.close r slot c) := by
  obtain ⟨m', hs, hclose⟩ := m.close_cases r slot c
  have ha : m'.agenda = m.agenda := by cases hs <;> rfl
  rcases hclose with ⟨reason, -, he⟩ | ⟨-, he⟩
  · rw [he]
    exact orders_answer ha _ _
  · rw [he]
    refine .inr ⟨[.round { r with ran := r.ran + 1 }], congrArg _ ha, by simp, ?_⟩
    rintro x ⟨⟩ ⟨⟩

theorem orders_run (m : Machine) (t : Task) : m.Orders t (m.run t) := by
  cases t with
  | call c asker => exact orders_perform m asker c
  | answer => exact orders_said
  | script calls =>
    cases calls with
    | nil => exact orders_nothing rfl
    | cons => exact orders_push (by simp [Task.isOrder])
  | raise | discard => exact orders_push (by simp [Task.isOrder])
  | deliver event told rest =>
    cases rest with
    | nil => exact orders_nothing rfl
    | cons => exact orders_push (by simp [Task.isOrder])
  | notify watcher event => exact orders_notify m event watcher
  | complain document source message =>
    simp only [Machine.run, Machine.complain]
    split
    · exact orders_nothing rfl
    · exact orders_push (by simp [Task.isOrder])
  | clear | cancel | seat => exact orders_nothing rfl
  | requestParse id => exact orders_requestParse m id
  | dispose id => exact orders_dispose m id
  | stop =>
    refine orders_onSlot (orders_none rfl ?_)
    intro x hx
    obtain ⟨w, -, rfl⟩ := List.mem_map.1 hx
    rfl
  | install slot w delay =>
    simp only [Machine.run, Machine.install]
    refine orders_onSlot ?_
    split
    · exact orders_nothing rfl
    · exact orders_push (by simp [Task.isOrder])
  | beginRound d =>
    simp only [Machine.run, Machine.beginRound]
    split
    · exact orders_said
    · split
      · exact .inl rfl
      · exact orders_push (by simp [Task.isOrder])
  | round r => exact orders_round m r
  | conclude r slot g w outcome =>
    refine orders_none rfl ?_
    intro x hx
    rcases List.mem_append.1 hx with hx | hx
    · obtain ⟨w, -, rfl⟩ := List.mem_map.1 hx
      rfl
    · obtain rfl := List.mem_singleton.1 hx
      rfl
  | close r slot c => exact orders_close m r slot c
  | putBack => exact orders_put

end OrderAux

open OrderAux

namespace Machine

namespace Course

variable {past : List Machine} {m : Machine} {x : Task} {rest : List Task}

/-- Behind the first task there is no order. -/
theorem unhurried (run : Course past m) : ∀ x ∈ m.agenda.tail, x.isOrder = false := by
  induction run with
  | new options => simp
  | ask c _ _ _ => simp [Machine.ask]
  | @step past m t rest run ha ih =>
    rw [ha] at ih
    rcases orders_run { m with agenda := rest } t with hnil | ⟨new, hn, htail, -⟩
    · simp [hnil]
    · rw [hn]
      intro x hx
      cases new with
      | nil => exact ih x (List.mem_of_mem_tail hx)
      | cons y new =>
        rcases List.mem_append.1 hx with hx | hx
        · exact htail x hx
        · exact ih x hx

/-- An order that is to be carried out was given by the task before. -/
theorem ordered (run : Course past m) (ha : m.agenda = x :: rest) (hx : x.isOrder = true) :
    ∃ y earlier t others, past = y :: earlier ∧ y.agenda = t :: others ∧ Ordered y.session t x := by
  cases run with
  | new options => cases ha
  | ask c run idle =>
    obtain ⟨rfl, -⟩ := List.cons.inj ha
    cases hx
  | @step past y t others run hy =>
    refine ⟨y, past, t, others, rfl, hy, ?_⟩
    have calm := run.unhurried
    rw [hy] at calm
    rcases orders_run { y with agenda := others } t with hnil | ⟨new, hn, -, hhead⟩
    · rw [hnil] at ha
      cases ha
    · rw [hn] at ha
      cases new with
      | nil =>
        have hmem : x ∈ others := by
          rw [show others = x :: rest from ha]
          exact .head _
        rw [calm x hmem] at hx
        cases hx
      | cons z new =>
        obtain ⟨rfl, -⟩ := List.cons.inj ha
        exact hhead z rfl hx

end Course

end Machine

end LiveHighlight
