import LiveHighlight.Proofs.Session.WorkChanges

/-!
# Every task changes the work in one of the ways listed

`Machine.run_turn`: a task takes one of the turns that `Turn` lists, or it finds a barred slot and the machine crashes. The proof
goes through the calls one by one; most of them happen quietly (`Machine.Quietly`), which is to say that the work of the session
does not depend on what they change.
-/

namespace LiveHighlight


section Session

variable (s : Session) (id : Nat)

@[simp] theorem office_note {e : Entry} (h : e.discarded? = none) : (s.note e).office = s.office := by
  simp [Session.office, Session.note, h]

@[simp] theorem office_setBuffer (b : Buffer) : (s.setBuffer id b).office = s.office := rfl

/-- A handler keeps its slot. -/
theorem office_updateHandler {f : Handler → Handler} (hf : ∀ h, (f h).slot = h.slot) :
    (s.updateHandler id f).office = s.office := by
  have hm : (s.handlers.modify id f).map (·.slot) = s.handlers.map (·.slot) := by
    apply List.ext_getElem?
    intro i
    by_cases hi : id = i <;> cases hh : s.handlers[i]? <;> simp [hi, hh, hf]
  simp only [Session.office, Session.updateHandler, hm]

end Session

/-- `m'` comes from `m` by changes that its work does not depend on and by tasks that any task may leave. -/
def Machine.Quietly (m m' : Machine) : Prop :=
  m'.session.office = m.session.office ∧
    (∃ new : List Task, m'.agenda = new ++ m.agenda ∧ ∀ x ∈ new, x.Light m.session.office) ∧
    (m'.reply = some .crashed → m.reply = some .crashed)

/-- `m'` comes from `m` by a turn that `t` takes. -/
def Machine.Turns (m : Machine) (t : Task) (m' : Machine) : Prop :=
  (∃ new, m'.agenda = new ++ m.agenda ∧ Turn m.session.office t m'.session.office new) ∧
    (m'.reply = some .crashed → m.reply = some .crashed)

namespace OfficeAux

variable {m m' m'' : Machine}

theorem quietly_refl (m : Machine) : m.Quietly m := ⟨rfl, ⟨[], rfl, by simp⟩, id⟩

theorem quietly_trans (h : m.Quietly m') (h' : m'.Quietly m'') : m.Quietly m'' := by
  obtain ⟨ho, ⟨new, ha, hn⟩, hr⟩ := h
  obtain ⟨ho', ⟨new', ha', hn'⟩, hr'⟩ := h'
  refine ⟨ho'.trans ho, ⟨new' ++ new, by rw [ha', ha, List.append_assoc], ?_⟩, hr ∘ hr'⟩
  intro x hx
  rcases List.mem_append.1 hx with hx | hx
  · exact ho ▸ hn' x hx
  · exact hn x hx

theorem quietly_put {s : Session} (h : s.office = m.session.office) : m.Quietly (m.put s) :=
  ⟨h, ⟨[], rfl, by simp⟩, id⟩

theorem quietly_push {new : List Task} (h : ∀ x ∈ new, x.Light m.session.office) : m.Quietly (m.push new) :=
  ⟨rfl, ⟨new, rfl, h⟩, id⟩

theorem quietly_answer (m : Machine) {r : Reply} (hr : r ≠ .crashed) (asker : Asker) : m.Quietly (m.answer asker r) := by
  cases asker with
  | host => exact ⟨rfl, ⟨[], rfl, by simp⟩, fun h => absurd (Option.some.inj h) hr⟩
  | script call => exact quietly_put (office_note _ rfl)

/-- Changes that the work does not depend on, then tasks. -/
theorem quietly_put_push {s : Session} (h : s.office = m.session.office) {new : List Task}
    (hn : ∀ x ∈ new, x.Light m.session.office) : m.Quietly ((m.put s).push new) :=
  quietly_trans (quietly_put h) (quietly_push (h.symm ▸ hn))

theorem quietly_find {α : Type} {asker : Asker} {found : Option α} {what : Missing} {go : α → Machine}
    (h : ∀ a, found = some a → m.Quietly (go a)) : m.Quietly (m.find asker found what go) := by
  cases found with
  | none => exact quietly_answer m (by simp) asker
  | some a => exact h a rfl

theorem quietly_withGrammar {α : Type} {asker : Asker} {made : Except GrammarError α} {go : α → Machine}
    (h : ∀ a, made = .ok a → m.Quietly (go a)) : m.Quietly (m.withGrammar asker made go) := by
  cases made with
  | error e => exact quietly_answer m (by simp) asker
  | ok a => exact h a rfl

/-- What happens quietly is a turn of any task that does no work. -/
theorem turns_of_quietly {t : Task} (ht : t.isQuiet = true) (h : m.Quietly m') : m.Turns t m' := by
  obtain ⟨ho, ⟨new, ha, hn⟩, hr⟩ := h
  exact ⟨⟨new, ha, by rw [ho]; exact Turn.quiet ht hn⟩, hr⟩

/-! ### Tasks that do no work -/

theorem refers_handler {i : Nat} {h : Handler} (hh : m.session.handlers[i]? = some h) : m.session.office.Refers h.slot :=
  .inr (List.mem_map.2 ⟨h, List.mem_of_getElem? hh, rfl⟩)

theorem turns_script (m : Machine) (calls : List Call) : m.Turns (.script calls) (m.script calls) := by
  cases calls with
  | nil => exact ⟨⟨[], rfl, Turn.silence⟩, fun h => h⟩
  | cons c rest => exact turns_of_quietly rfl (quietly_push (by simp [Task.Light]))

theorem quietly_raise (m : Machine) (document : Nat) (event : BufferEvent) : m.Quietly (m.raise document event) :=
  quietly_put_push rfl (by simp [Task.Light, Task.isQuiet])

theorem quietly_deliver (m : Machine) (event : BufferEvent) (rest : List Watcher) : m.Quietly (m.deliver event rest) := by
  cases rest with
  | nil => exact quietly_refl m
  | cons w rest => exact quietly_push (by simp [Task.Light, Task.isQuiet])

theorem quietly_notify (m : Machine) (event : BufferEvent) (w : Watcher) : m.Quietly (m.notify event w) := by
  cases w with
  | observer id =>
    simp only [Machine.notify]
    split
    · exact quietly_refl m
    · next o _ =>
      have hn : m.Quietly (m.put (m.session.note (.heard o.name event))) := quietly_put (office_note _ rfl)
      split
      · refine quietly_trans hn (quietly_put_push ?_ ?_)
        · rfl
        · intro x hx
          obtain rfl := List.mem_singleton.1 hx
          trivial
      · exact hn
  | handler id =>
    simp only [Machine.notify]
    split
    · exact quietly_refl m
    · split
      · exact quietly_push (by simp [Task.Light, Task.isQuiet])
      · exact quietly_refl m

theorem quietly_complain (m : Machine) (document : Nat) (source message : String) :
    m.Quietly (m.complain document source message) := by
  unfold Machine.complain
  split
  · exact quietly_refl m
  · exact quietly_put_push (office_note _ rfl) (by simp [Task.Light, Task.isQuiet])

theorem quietly_dispose (m : Machine) (handler : Nat) : m.Quietly (m.dispose handler) := by
  unfold Machine.dispose
  split
  · exact quietly_refl m
  · next h hh =>
    split
    · exact quietly_refl m
    · dsimp only
      refine quietly_put_push ?_ ?_
      · exact office_updateHandler _ _ fun _ => rfl
      · intro x hx
        rcases List.mem_pair.1 hx with rfl | rfl
        · exact refers_handler hh
        · rfl

/-! ### Calls on documents and sinks -/

theorem quietly_edit (m : Machine) (asker : Asker) (id : Nat) (e : Edit) : m.Quietly (m.edit asker id e) := by
  unfold Machine.edit
  split
  · exact quietly_answer m (by simp) asker
  · exact quietly_put_push rfl (by cases e <;> simp [Task.Light, Task.isQuiet, Edit.reply])

theorem quietly_letGo (m : Machine) (name : String) : m.Quietly (m.letGo name) := by
  unfold Machine.letGo
  split
  · exact quietly_refl m
  · exact quietly_put rfl

theorem quietly_observe (m : Machine) (id : Nat) (name : String) (reaction : Reaction Call) :
    m.Quietly (m.observe id name reaction) :=
  quietly_trans (quietly_letGo m name) (quietly_trans (quietly_put rfl) (quietly_put rfl))

theorem turns_openWorker (m : Machine) (asker : Asker) (doc : String) (id : Nat) (name : String)
    (made : Except GrammarError Grammar) (g : Grammar) (o : ParseOptions) (token : Option String) :
    m.Turns (.call (.onDocument doc (.openWorker name made o token)) asker)
      ((m.openWorker id name g o token).answer asker .done) := by
  have hk : m.Turns (.call (.onDocument doc (.openWorker name made o token)) asker) (m.openWorker id name g o token) := by
    unfold Machine.openWorker
    cases token.bind m.session.names.tokens.get? <;> exact ⟨⟨[], rfl, Turn.keep⟩, fun hr => hr⟩
  obtain ⟨⟨new, ha, ht⟩, hr⟩ := hk
  obtain ⟨ho, ⟨none', ha', hn⟩, hr'⟩ := quietly_answer (m.openWorker id name g o token) (r := .done) (by simp) asker
  cases asker with
  | host => exact ⟨⟨new, ha, ht⟩, fun h => by cases h⟩
  | script call => exact ⟨⟨new, ha, by rw [ho]; exact ht⟩, hr ∘ hr'⟩

theorem turns_onDocument (m : Machine) (asker : Asker) (doc : String) (id : Nat) (call : DocumentCall Call) :
    m.Turns (.call (.onDocument doc call) asker) (m.onDocument asker id call) := by
  cases call with
  | openWorker worker grammar options token =>
    cases grammar with
    | error e => exact turns_of_quietly rfl (quietly_answer m (by simp) asker)
    | ok g => exact turns_openWorker m asker doc id worker _ g options token
  | edit e => exact turns_of_quietly rfl (quietly_edit m asker id e)
  | clear => exact turns_of_quietly rfl (quietly_trans (quietly_put rfl) (quietly_answer _ (by simp) asker))
  | raise event => exact turns_of_quietly rfl (quietly_push (by simp [Task.Light, Task.isQuiet]))
  | complain source message => exact turns_of_quietly rfl (quietly_push (by simp [Task.Light, Task.isQuiet]))
  | annotate line a =>
    refine turns_of_quietly rfl ?_
    simp only [Machine.onDocument]
    split
    · exact quietly_answer m (by simp) asker
    · exact quietly_trans (quietly_put rfl) (quietly_answer _ (by simp) asker)
  | line line =>
    refine turns_of_quietly rfl ?_
    simp only [Machine.onDocument]
    split <;> exact quietly_answer m (by simp) asker
  | describe => exact turns_of_quietly rfl (quietly_answer m (by simp) asker)
  | isSame other => exact turns_of_quietly rfl (quietly_find fun _ _ => quietly_answer m (by simp) asker)
  | snapshot stream => exact turns_of_quietly rfl (quietly_trans (quietly_put rfl) (quietly_answer _ (by simp) asker))
  | observe observer reaction =>
    exact turns_of_quietly rfl (quietly_trans (quietly_observe m id observer reaction) (quietly_answer _ (by simp) asker))
  | openSink sink errorColor => exact turns_of_quietly rfl (quietly_trans (quietly_put rfl) (quietly_answer _ (by simp) asker))

theorem quietly_write (m : Machine) (asker : Asker) (id : Nat) (sink : Sink) (event : Event) :
    m.Quietly (m.write asker id sink event) := by
  unfold Machine.write
  split
  · exact quietly_answer m (by simp) asker
  · exact quietly_trans (quietly_put rfl) (quietly_answer _ (by simp) asker)

theorem quietly_onSink (m : Machine) (asker : Asker) (id : Nat) (sink : Sink) (call : SinkCall) :
    m.Quietly (m.onSink asker id sink call) := by
  cases call with
  | matched made => exact quietly_withGrammar fun _ _ => quietly_write m asker id sink _
  | unmatched made position => exact quietly_withGrammar fun _ _ => quietly_write m asker id sink _
  | aborted fault position => exact quietly_push (by simp [Task.Light, Task.isQuiet])

/-! ### Calls on slots -/

/-- What comes of a task: it takes a turn, or it finds a barred slot. -/
def Moves (m : Machine) (t : Task) (m' : Machine) : Prop :=
  (m' = m.crash ∧ ∃ slot, (m.session.scheduler.slot slot).barred = true) ∨ m.Turns t m'

theorem moves_of_quietly {t : Task} (ht : t.isQuiet = true) (h : m.Quietly m') : Moves m t m' :=
  .inr (turns_of_quietly ht h)

/-- An answer changes nothing that a turn is about. -/
theorem turns_answer {t : Task} (h : m.Turns t m') {r : Reply} (hr : r ≠ .crashed) (asker : Asker) :
    m.Turns t (m'.answer asker r) := by
  obtain ⟨⟨new, ha, ht⟩, hc⟩ := h
  obtain ⟨ho, -, hr'⟩ := quietly_answer m' hr asker
  refine ⟨⟨new, ?_, by rw [ho]; exact ht⟩, hc ∘ hr'⟩
  cases asker <;> exact ha

theorem moves_onSlot {t : Task} {slot : Nat} {go : Machine}
    (h : (m.session.scheduler.slot slot).barred = false → m.Turns t go) : Moves m t (m.onSlot slot go) := by
  unfold Machine.onSlot
  split
  · next hb => exact .inl ⟨rfl, slot, hb⟩
  · next hb => exact .inr (h (by simpa using hb))

theorem moves_start {c : Call} {asker : Asker} {slot delay : Nat} {r : Bool → Reply} (hs : m.session.office.Refers slot)
    (hr : ∀ b, r b ≠ .crashed) :
    Moves m (.call c asker) (m.start slot delay fun m started => m.answer asker (r started)) := by
  refine moves_onSlot ?_
  intro hb
  have hp : m.Turns (.call c asker) (m.schedule (m.session.scheduler.start slot (m.session.now + delay)).1) :=
    ⟨⟨[], rfl, Turn.start hs hb⟩, fun h => h⟩
  exact turns_answer hp (hr _) asker

theorem moves_pause {c : Call} {asker : Asker} {slot : Nat} {r : Bool → Reply} (hs : m.session.office.Refers slot)
    (hr : ∀ b, r b ≠ .crashed) : Moves m (.call c asker) (m.pause slot fun m paused => m.answer asker (r paused)) := by
  refine moves_onSlot ?_
  intro hb
  have hp : m.Turns (.call c asker) (m.schedule (m.session.scheduler.pause slot).1) :=
    ⟨⟨[], rfl, Turn.pause hs hb⟩, fun h => h⟩
  exact turns_answer hp (hr _) asker

theorem moves_execute {c : Call} {asker : Asker} {slot : Nat} (command : Nat) (hs : m.session.office.Refers slot) :
    Moves m (.call c asker) (m.execute asker slot command) := by
  unfold Machine.execute
  split
  · exact moves_of_quietly rfl (quietly_answer m (by simp) asker)
  · exact moves_start hs (by simp)
  · exact moves_pause hs (by simp)
  · exact moves_of_quietly rfl (quietly_push (by simp [Task.Light, hs]))

theorem moves_onPlace (m : Machine) (asker : Asker) {name : String} {slot : Nat}
    (hs : m.session.names.places.get? name = some slot) (call : PlaceCall Call) :
    Moves m (.call (.onPlace name call) asker) (m.onPlace asker slot call) := by
  have href : m.session.office.Refers slot := .inl ⟨name, hs⟩
  cases call with
  | queue script delay =>
    exact .inr ⟨⟨_, rfl, Turn.employ hs (by simp [Task.Light])⟩, fun h => h⟩
  | queueParse worker delay =>
    simp only [Machine.onPlace, Machine.find]
    split
    · exact moves_of_quietly rfl (quietly_answer m (by simp) asker)
    · next w hw => exact .inr ⟨⟨_, rfl, Turn.engage hs hw (by simp [Task.Light])⟩, fun h => h⟩
  | start delay => exact moves_start href (by simp)
  | pause => exact moves_pause href (by simp)
  | stop => exact moves_of_quietly rfl (quietly_push (by simp [Task.Light, href]))
  | execute command => exact moves_execute command href
  | status => exact moves_onSlot fun _ => turns_of_quietly rfl (quietly_answer m (by simp) asker)

theorem turns_openPlace (m : Machine) (asker : Asker) (name : String) :
    m.Turns (.call (.place name) asker) (m.openPlace asker name) := by
  refine ⟨⟨_, rfl, Turn.openPlace ?_⟩, fun h => h⟩
  intro x hx
  simp only [List.mem_append, List.mem_map, Option.mem_toList, List.mem_singleton] at hx
  rcases hx with ⟨slot, hs, rfl⟩ | rfl
  · exact .inl ⟨name, hs⟩
  · simp [Task.Light]

theorem turns_dropPlace (m : Machine) (asker : Asker) (name : String) :
    m.Turns (.call (.dropPlace name) asker) (m.dropPlace asker name) := by
  unfold Machine.dropPlace
  split
  · exact turns_of_quietly rfl (quietly_answer m (by simp) asker)
  · next slot hs =>
    have href : m.session.office.Refers slot := .inl ⟨name, hs⟩
    exact ⟨⟨_, rfl, Turn.dropPlace (by simp [Task.Light, href])⟩, fun h => h⟩

/-! ### Calls on handlers -/

theorem turns_makeHandler (m : Machine) (asker : Asker) (name : String) (plan : HandlerPlan String) (p : HandlerPlan Nat) :
    m.Turns (.call (.handler name plan) asker) (m.makeHandler asker name p) := by
  unfold Machine.makeHandler
  split
  · exact turns_of_quietly rfl (quietly_answer m (by simp) asker)
  · exact turns_of_quietly rfl (quietly_answer m (by simp) asker)
  · next document g _ =>
    refine ⟨⟨_, rfl, ?_⟩, fun h => h⟩
    have ho : (m.attach asker name document g p.options).session.office =
        { m.session.office with
          scheduler := (m.session.office.scheduler.add s!"parse:{g.name}").1
          desks := m.session.office.desks ++ [m.session.office.scheduler.slots.length] } := by
      simp [Machine.attach, Machine.push, Machine.rename, Machine.put, Session.office, Session.subscribe, Session.freshToken,
        Session.updateDocument, Scheduler.add]
    rw [ho]
    refine Turn.attach _ ?_
    intro x hx
    simp only [List.mem_append, List.mem_map, List.mem_singleton] at hx
    rcases hx with ⟨old, -, rfl⟩ | rfl
    · rfl
    · simp [Task.Light]

theorem moves_onHandler (m : Machine) (asker : Asker) {c : Call} {id : Nat} {h : Handler}
    (hh : m.session.handlers[id]? = some h) (call : HandlerCall) :
    Moves m (.call c asker) (m.onHandler asker id h call) := by
  have href := refers_handler hh
  cases call with
  | reparse => exact moves_of_quietly rfl (quietly_push (by split <;> simp [Task.Light, Task.isQuiet]))
  | enable on =>
    simp only [Machine.onHandler]
    split
    · exact moves_of_quietly rfl (quietly_answer m (by simp) asker)
    · refine moves_of_quietly rfl (quietly_put_push ?_ ?_)
      · exact office_updateHandler _ _ fun _ => rfl
      · cases on <;> simp [Task.Light, Task.isQuiet, href]
  | dispose => exact moves_of_quietly rfl (quietly_push (by simp [Task.Light, Task.isQuiet]))
  | execute command => exact moves_execute command href

/-! ### Work -/

/-- A step of a worker: what it does has nothing to do with slots, and the task that sees to its outcome comes last. -/
theorem work_spec (m : Machine) (w : Worker) (next : Worker → Outcome → Task) :
    ∃ (w' : Worker) (outcome : Outcome) (s : Session) (new : List Task),
      m.work w next = (m.put s).push (new ++ [next w' outcome]) ∧ s.office = m.session.office ∧ w.Later w' ∧
        ∀ x ∈ new, x.Light m.session.office := by
  obtain ⟨id, body⟩ := w
  cases body with
  | scripted script begun =>
    refine ⟨⟨id, .scripted script (begun + 1)⟩, (script.act begun).outcome, m.session.note (.stepped id script.name begun),
      [.script (script.act begun).calls], rfl, office_note _ rfl, ⟨rfl, rfl, rfl⟩, ?_⟩
    simp [Task.Light, Task.isQuiet]
  | parsing document job token =>
    let result := job.step (m.session.isCancelled token) (m.session.document document).buffer
    refine ⟨⟨id, .parsing document result.job token⟩, .ok result.next,
      (m.session.note (.parsed id job.phase)).setBuffer document result.buffer,
      result.complaint.toList.map (.complain document "parser") ++
        (if result.announces then [.raise document .formatted] else []), rfl, ?_, ⟨rfl, rfl, rfl⟩, ?_⟩
    · rw [office_setBuffer, office_note _ rfl]
    · intro x hx
      rcases List.mem_append.1 hx with hx | hx
      · obtain ⟨message, -, rfl⟩ := List.mem_map.1 hx
        rfl
      · split at hx
        · obtain rfl := List.mem_singleton.1 hx
          rfl
        · cases hx

theorem turns_stepWorker (m : Machine) (asker : Asker) {name : String} {w : Worker}
    (hw : m.session.names.workers.get? name = some w) :
    m.Turns (.call (.stepWorker name) asker)
      ((m.rename fun names => { names with workers := names.workers.erase name }).work w (.putBack asker name)) := by
  obtain ⟨w', outcome, s, new, h, ho, hl, hn⟩ :=
    work_spec (m.rename fun names => { names with workers := names.workers.erase name }) w (.putBack asker name)
  rw [h]
  refine ⟨⟨_, rfl, ?_⟩, fun h => h⟩
  have hs : s.office = { m.session.office with workers := m.session.office.workers.erase name } := ho
  simp only [Machine.push, Machine.put, hs]
  exact Turn.rehearse hw hl hn

theorem moves_stop (m : Machine) (slot : Nat) : Moves m (.stop slot) (m.stop slot) :=
  moves_onSlot fun hb => ⟨⟨_, rfl, Turn.stop hb⟩, fun h => h⟩

theorem turns_discard (m : Machine) (w : Worker) : m.Turns (.discard w) (m.discard w) := by
  refine ⟨⟨_, rfl, ?_⟩, fun h => h⟩
  have ho : (m.session.note (.dropped w.id w.name)).office =
      { m.session.office with dropped := m.session.office.dropped ++ [w.id] } := by
    simp [Session.office, Session.note, Entry.discarded?]
  simp only [Machine.discard, Machine.push, Machine.put, ho]
  exact Turn.discard

theorem moves_install (m : Machine) (slot : Nat) (w : Worker) (delay : Nat) :
    Moves m (.install slot w delay) (m.install slot w delay) := by
  refine moves_onSlot ?_
  intro hb
  split
  · next hw => exact ⟨⟨[], rfl, Turn.install hb hw⟩, fun h => h⟩
  · next old hw => exact ⟨⟨_, rfl, Turn.evict hb hw⟩, fun h => h⟩

theorem moves_beginRound (m : Machine) (d : Drive) : Moves m (.beginRound d) (m.beginRound d) := by
  unfold Machine.beginRound
  split
  · exact .inr (turns_answer ⟨⟨[], rfl, Turn.endDrive⟩, fun h => h⟩ (by unfold Drive.reply; split <;> simp) d.asker)
  · split
    · next hb =>
      simp only [Scheduler.anyBarred, List.any_eq_true] at hb
      obtain ⟨slot, -, hb⟩ := hb
      exact .inl ⟨rfl, slot, hb⟩
    · exact .inr ⟨⟨_, rfl, Turn.beginRound _⟩, fun h => h⟩

theorem turns_endRound (m : Machine) {r : Round} (hr : r.due = []) : m.Turns (.round r) (m.endRound r) := by
  unfold Machine.endRound
  dsimp only
  split
  · exact ⟨⟨_, rfl, Turn.endRound hr (.inr ⟨_, rfl⟩)⟩, fun h => h⟩
  · have ht : m.Turns (.round r) m := ⟨⟨[], rfl, Turn.endRound hr (.inl rfl)⟩, fun h => h⟩
    exact turns_answer ht (by unfold Drive.reply; split <;> simp) r.drive.asker

theorem turns_round (m : Machine) (r : Round) : m.Turns (.round r) (m.round r) := by
  unfold Machine.round
  split
  · next hr => exact turns_endRound m hr
  · next slot rest hr =>
    dsimp only
    split
    · next scheduler w g hc =>
      obtain ⟨w', outcome, s, new, h, ho, hl, hn⟩ :=
        work_spec (m.schedule scheduler) w (.conclude { r with due := rest } slot g)
      rw [h]
      refine ⟨⟨_, rfl, ?_⟩, fun h => h⟩
      have hs : s.office = { m.session.office with scheduler := (m.session.scheduler.claim slot r.now).1 } := by
        rw [ho, hc]
        rfl
      simp only [Machine.push, Machine.put, hs]
      exact Turn.work (by rw [show m.session.office.scheduler = m.session.scheduler from rfl, hc]) hl hn
    · next scheduler claim hne hc =>
      refine ⟨⟨[.round { r with due := rest }], rfl, ?_⟩, fun h => h⟩
      have hs : (m.schedule scheduler).session.office =
          { m.session.office with scheduler := (m.session.office.scheduler.claim slot r.now).1 } := by
        rw [show m.session.office.scheduler = m.session.scheduler from rfl, hc]
        rfl
      simp only [Machine.push, hs]
      refine Turn.pass fun w g hw => hne w g ?_
      rw [show m.session.office.scheduler = m.session.scheduler from rfl, hc] at hw
      exact hw

theorem turns_close (m : Machine) (r : Round) (slot : Nat) (c : Conclusion Worker) :
    m.Turns (.close r slot c) (m.close r slot c) := by
  obtain ⟨m', hs, hclose⟩ := m.close_cases r slot c
  -- A settled slot is a turn by itself if the round ends here, and together with the next task of the round if it goes on.
  have h : m.Turns (.close r slot c) m' ∧ ∀ r', m.Turns (.close r slot c) (m'.push [.round r']) := by
    cases hs with
    | returned hc =>
      exact ⟨⟨⟨[], rfl, Turn.closeReturning hc (.inl rfl)⟩, fun h => h⟩,
        fun r' => ⟨⟨_, rfl, Turn.closeReturning hc (.inr ⟨r', rfl⟩)⟩, fun h => h⟩⟩
    | finished hc hf =>
      exact ⟨⟨⟨[], rfl, Turn.closeFinished hc hf (.inl rfl)⟩, fun h => h⟩,
        fun r' => ⟨⟨_, rfl, Turn.closeFinished hc hf (.inr ⟨r', rfl⟩)⟩, fun h => h⟩⟩
    | unfinished hc hf =>
      exact ⟨⟨⟨[], rfl, Turn.closeOpen hc hf (.inl rfl)⟩, fun h => h⟩,
        fun r' => ⟨⟨_, rfl, Turn.closeOpen hc hf (.inr ⟨r', rfl⟩)⟩, fun h => h⟩⟩
  rcases hclose with ⟨reason, -, he⟩ | ⟨-, he⟩
  · rw [he]
    exact turns_answer h.1 (by simp) _
  · rw [he]
    exact h.2 _

theorem turns_requestParse (m : Machine) (handler : Nat) : m.Turns (.requestParse handler) (m.requestParse handler) := by
  unfold Machine.requestParse
  split
  · exact turns_of_quietly rfl (quietly_refl m)
  · next h hh =>
    split
    · exact turns_of_quietly rfl (quietly_refl m)
    · have hs : m.session.office.desks[handler]? = some h.slot := by simp [Session.office, hh]
      exact ⟨⟨_, rfl, Turn.request hs⟩, fun h => h⟩

/-! ### Calls -/

theorem moves_perform (m : Machine) (asker : Asker) (c : Call) : Moves m (.call c asker) (m.perform asker c) := by
  have quiet {m' : Machine} (h : m.Quietly m') : Moves m (.call c asker) m' := moves_of_quietly rfl h
  cases c with
  | document doc text site => exact quiet (quietly_trans (quietly_put rfl) (quietly_answer _ (by simp) asker))
  | onDocument doc call =>
    simp only [Machine.perform, Machine.find]
    split
    · exact quiet (quietly_answer m (by simp) asker)
    · exact .inr (turns_onDocument m asker doc _ call)
  | readSnapshot stream query => exact quiet (quietly_find fun _ _ => quietly_answer m (by simp) asker)
  | unobserve name =>
    exact quiet (quietly_find fun _ _ => quietly_trans (quietly_put rfl) (quietly_answer _ (by simp) asker))
  | release name => exact quiet (quietly_trans (quietly_letGo m name) (quietly_answer _ (by simp) asker))
  | drive kind rounds => exact .inr ⟨⟨_, rfl, Turn.drive _⟩, fun h => h⟩
  | options => exact quiet (quietly_answer m (by simp) asker)
  | advance time => exact quiet (quietly_trans (quietly_put rfl) (quietly_answer _ (by simp) asker))
  | setClock time => exact quiet (quietly_trans (quietly_put rfl) (quietly_answer _ (by simp) asker))
  | place name => exact .inr (turns_openPlace m asker name)
  | dropPlace name => exact .inr (turns_dropPlace m asker name)
  | onPlace name call =>
    simp only [Machine.perform, Machine.find]
    split
    · exact quiet (quietly_answer m (by simp) asker)
    · next slot hs => exact moves_onPlace m asker hs call
  | register made extensions =>
    exact quiet (quietly_withGrammar fun _ _ => quietly_withGrammar fun _ _ =>
      quietly_trans (quietly_put rfl) (quietly_answer _ (by simp) asker))
  | registerDefinition text =>
    exact quiet (quietly_withGrammar fun _ _ => quietly_trans (quietly_put rfl) (quietly_answer _ (by simp) asker))
  | handler name plan =>
    simp only [Machine.perform]
    split
    · exact .inr (turns_makeHandler m asker name plan _)
    · simp only [Machine.find]
      split
      · exact quiet (quietly_answer m (by simp) asker)
      · exact .inr (turns_makeHandler m asker name plan _)
  | dropHandler name =>
    simp only [Machine.perform, Machine.dropHandler]
    split
    · exact quiet (quietly_answer m (by simp) asker)
    · exact quiet (quietly_put_push rfl (by simp [Task.Light, Task.isQuiet]))
  | onHandler name call =>
    simp only [Machine.perform, Machine.find]
    split
    · exact quiet (quietly_answer m (by simp) asker)
    · split
      · exact quiet (quietly_answer m (by simp) asker)
      · next h hh => exact moves_onHandler m asker hh call
  | token name parent =>
    simp only [Machine.perform]
    split
    · exact quiet (quietly_trans (quietly_put rfl) (quietly_answer _ (by simp) asker))
    · exact quiet (quietly_find fun _ _ => quietly_trans (quietly_put rfl) (quietly_answer _ (by simp) asker))
  | cancel name => exact quiet (quietly_find fun _ _ => quietly_trans (quietly_put rfl) (quietly_answer _ (by simp) asker))
  | stepWorker name =>
    simp only [Machine.perform, Machine.find]
    split
    · exact quiet (quietly_answer m (by simp) asker)
    · next w hw => exact .inr (turns_stepWorker m asker hw)
  | onSink name call => exact quiet (quietly_find fun _ _ => quietly_onSink m asker _ _ call)

end OfficeAux

open OfficeAux

/-- Every task takes a turn or finds a barred slot, and only in the second case the machine crashes. -/
theorem Machine.run_turn (m : Machine) {t : Task} (ht : ∀ asker, t ≠ .answer asker .crashed) :
    (m.run t = m.crash ∧ ∃ slot, (m.session.scheduler.slot slot).barred = true) ∨ m.Turns t (m.run t) := by
  cases t with
  | call c asker => exact moves_perform m asker c
  | answer asker reply => exact moves_of_quietly rfl (quietly_answer m (fun h => ht asker (h ▸ rfl)) asker)
  | script calls => exact .inr (turns_script m calls)
  | raise document event => exact moves_of_quietly rfl (quietly_raise m document event)
  | deliver event told rest => exact moves_of_quietly rfl (quietly_deliver m event rest)
  | notify watcher event => exact moves_of_quietly rfl (quietly_notify m event watcher)
  | complain document source message => exact moves_of_quietly rfl (quietly_complain m document source message)
  | clear document => exact moves_of_quietly rfl (quietly_put rfl)
  | requestParse handler => exact .inr (turns_requestParse m handler)
  | dispose handler => exact moves_of_quietly rfl (quietly_dispose m handler)
  | cancel token => exact moves_of_quietly rfl (quietly_put rfl)
  | stop slot => exact moves_stop m slot
  | discard w => exact .inr (turns_discard m w)
  | install slot w delay => exact moves_install m slot w delay
  | seat slot w at_ => exact .inr ⟨⟨[], rfl, Turn.seat⟩, fun h => h⟩
  | beginRound d => exact moves_beginRound m d
  | round r => exact .inr (turns_round m r)
  | conclude r slot g w outcome => exact .inr ⟨⟨_, rfl, Turn.conclude⟩, fun h => h⟩
  | close r slot c => exact .inr (turns_close m r slot c)
  | putBack asker name w outcome =>
    have hp : m.Turns (.putBack asker name w outcome)
        (m.put { m.session with names := { m.session.names with workers := m.session.names.workers.insert name w } }) :=
      ⟨⟨[], rfl, Turn.putBack⟩, fun h => h⟩
    exact .inr (turns_answer hp (by split <;> simp) asker)

end LiveHighlight
