import LiveHighlight.Proofs.Session.DocumentChanges

/-!
# Every task changes documents and handlers in one of the ways listed

`Machine.run_page`: a task does one of the things to documents and handlers that `Page` lists, or the machine crashes. Tasks that
only work on slots do so mutely (`Machine.Mutely`), which is to say that documents and handlers do not depend on what they change.
-/

namespace LiveHighlight

/-- `m'` comes from `m` by changes that documents and handlers do not depend on and by tasks that are mute. -/
def Machine.Mutely (m m' : Machine) : Prop :=
  m'.session.desk = m.session.desk ∧ ∃ new : List Task, m'.agenda = new ++ m.agenda ∧ ∀ x ∈ new, x.isMute = true

/-- `m'` comes from `m` by a page that `t` turns, or by a crash. -/
def Machine.Pages (m : Machine) (t : Task) (m' : Machine) : Prop :=
  m' = m.crash ∨ ∃ new, m'.agenda = new ++ m.agenda ∧ Page m.session t m'.session.desk new

namespace PageAux

variable {m m' m'' : Machine}

theorem mutely_refl (m : Machine) : m.Mutely m := ⟨rfl, [], rfl, by simp⟩

theorem mutely_trans (h : m.Mutely m') (h' : m'.Mutely m'') : m.Mutely m'' := by
  obtain ⟨hd, new, ha, hn⟩ := h
  obtain ⟨hd', new', ha', hn'⟩ := h'
  refine ⟨hd'.trans hd, new' ++ new, by rw [ha', ha, List.append_assoc], ?_⟩
  intro x hx
  rcases List.mem_append.1 hx with hx | hx
  · exact hn' x hx
  · exact hn x hx

theorem mutely_put {s : Session} (h : s.desk = m.session.desk) : m.Mutely (m.put s) := ⟨h, [], rfl, by simp⟩

theorem mutely_push {new : List Task} (h : ∀ x ∈ new, x.isMute = true) : m.Mutely (m.push new) := ⟨rfl, new, rfl, h⟩

theorem mutely_answer (m : Machine) (asker : Asker) (r : Reply) : m.Mutely (m.answer asker r) := by
  cases asker <;> exact ⟨rfl, [], rfl, by simp⟩

theorem mutely_find {α : Type} {asker : Asker} {found : Option α} {what : Missing} {go : α → Machine}
    (h : ∀ a, found = some a → m.Mutely (go a)) : m.Mutely (m.find asker found what go) := by
  cases found with
  | none => exact mutely_answer m asker _
  | some a => exact h a rfl

theorem mutely_withGrammar {α : Type} {asker : Asker} {made : Except GrammarError α} {go : α → Machine}
    (h : ∀ a, made = .ok a → m.Mutely (go a)) : m.Mutely (m.withGrammar asker made go) := by
  cases made with
  | error e => exact mutely_answer m asker _
  | ok a => exact h a rfl

theorem pages_of_mutely {t : Task} (ht : t.isStill = true) (h : m.Mutely m') : m.Pages t m' := by
  obtain ⟨hd, new, ha, hn⟩ := h
  exact .inr ⟨new, ha, by rw [hd]; exact .quiet ht hn⟩

theorem pages_onSlot {t : Task} {slot : Nat} {go : Machine} (h : m.Pages t go) : m.Pages t (m.onSlot slot go) := by
  unfold Machine.onSlot
  split
  · exact .inl rfl
  · exact h

/-- A page, then an answer. -/
theorem pages_answer {t : Task} {new : List Task} (ha : m'.agenda = new ++ m.agenda)
    (hp : Page m.session t m'.session.desk new) (asker : Asker) (r : Reply) : m.Pages t (m'.answer asker r) := by
  refine .inr ⟨new, ?_, ?_⟩
  · cases asker <;> exact ha
  · cases asker <;> exact hp

/-! ### Calls on documents and sinks -/

theorem pages_edit (m : Machine) (asker : Asker) {doc : String} {id : Nat} (hd : m.session.names.documents.get? doc = some id)
    (e : Edit) : m.Pages (.call (.onDocument doc (.edit e)) asker) (m.edit asker id e) := by
  unfold Machine.edit
  split
  · exact pages_of_mutely rfl (mutely_answer m asker _)
  · rename_i b event he
    exact .inr ⟨_, rfl, .edit hd he⟩

theorem desk_letGo (m : Machine) (name : String) : (m.letGo name).session.desk = m.session.desk := by
  unfold Machine.letGo
  split
  · rfl
  · rename_i id _
    have hw : (m.session.observers.modify id ({ · with held := false })).map (fun o => (o.document, o.subscription)) =
        m.session.observers.map fun o => (o.document, o.subscription) := by
      apply List.ext_getElem?
      intro i
      by_cases hi : id = i <;> cases ho : m.session.observers[i]? <;> simp [hi, ho]
    simp only [Machine.put, Session.desk, hw]

theorem agenda_letGo (m : Machine) (name : String) : (m.letGo name).agenda = m.agenda := by
  unfold Machine.letGo
  split <;> rfl

theorem mutely_letGo (m : Machine) (name : String) : m.Mutely (m.letGo name) :=
  ⟨desk_letGo m name, [], agenda_letGo m name, by simp⟩

theorem document_letGo (m : Machine) (name : String) (id : Nat) :
    (m.letGo name).session.document id = m.session.document id := by
  have hd := congrArg Desk.documents (desk_letGo m name)
  simp only [Session.desk] at hd
  simp only [Session.document, hd]

theorem pages_observe (m : Machine) (asker : Asker) {doc : String} {id : Nat}
    (hd : m.session.names.documents.get? doc = some id) (name : String) (reaction : Reaction Call) :
    m.Pages (.call (.onDocument doc (.observe name reaction)) asker) ((m.observe id name reaction).answer asker .done) := by
  have ha : (m.observe id name reaction).agenda = [] ++ m.agenda := agenda_letGo m name
  refine pages_answer ha ?_ asker .done
  have hk : (m.observe id name reaction).session.desk =
      { m.session.desk.subscribe id
          ((m.session.document id).subscriptions.add (.observer (m.letGo name).session.observers.length)).1 with
        watching := m.session.desk.watching ++ [(id, (m.session.document id).subscriptions.next)] } := by
    rw [← desk_letGo m name, ← document_letGo m name id]
    simp only [Machine.observe, Machine.rename, Machine.put, Session.desk, Session.subscribe, Session.updateDocument,
      List.map_append, List.map_singleton]
    rfl
  rw [hk]
  exact .observe hd

theorem mutely_openWorker (m : Machine) (id : Nat) (name : String) (g : Grammar) (o : ParseOptions) {token : Option String}
    {t : CancelToken} (ht : token.bind m.session.names.tokens.get? = some t) : m.Mutely (m.openWorker id name g o token) := by
  unfold Machine.openWorker
  rw [ht]
  exact ⟨rfl, [], rfl, by simp⟩

theorem pages_openWorker (m : Machine) (asker : Asker) (c : Call) (id : Nat) (name : String) (g : Grammar) (o : ParseOptions)
    (token : Option String) : m.Pages (.call c asker) ((m.openWorker id name g o token).answer asker .done) := by
  cases ht : token.bind m.session.names.tokens.get? with
  | some t => exact pages_of_mutely rfl (mutely_trans (mutely_openWorker m id name g o ht) (mutely_answer _ asker .done))
  | none =>
    have hk : (m.openWorker id name g o token).session.desk = { m.session.desk with nextToken := m.session.nextToken + 1 } := by
      unfold Machine.openWorker
      rw [ht]
      rfl
    have ha : (m.openWorker id name g o token).agenda = [] ++ m.agenda := by
      unfold Machine.openWorker
      rw [ht]
      rfl
    exact pages_answer ha (by rw [hk]; exact .mint) asker .done

theorem pages_onDocument (m : Machine) (asker : Asker) {doc : String} {id : Nat}
    (hd : m.session.names.documents.get? doc = some id) (call : DocumentCall Call) :
    m.Pages (.call (.onDocument doc call) asker) (m.onDocument asker id call) := by
  cases call with
  | edit e => exact pages_edit m asker hd e
  | clear =>
    have ha : (m.clear id).agenda = [] ++ m.agenda := rfl
    exact pages_answer ha (.format hd rfl (Buffer.texts_clear _)) asker .done
  | raise event => exact .inr ⟨_, rfl, .raiseCall⟩
  | complain source message => exact pages_of_mutely rfl (mutely_push (by simp [Task.isMute]))
  | annotate line a =>
    simp only [Machine.onDocument]
    split
    · exact pages_of_mutely rfl (mutely_answer m asker _)
    · rename_i b hb
      have ha : (m.put (m.session.setBuffer id b)).agenda = [] ++ m.agenda := rfl
      exact pages_answer ha (.format hd rfl (Buffer.texts_annotate hb)) asker .accepted
  | line line =>
    simp only [Machine.onDocument]
    split <;> exact pages_of_mutely rfl (mutely_answer m asker _)
  | describe => exact pages_of_mutely rfl (mutely_answer m asker _)
  | isSame other => exact pages_of_mutely rfl (mutely_find fun _ _ => mutely_answer m asker _)
  | snapshot stream => exact pages_of_mutely rfl (mutely_trans (mutely_put rfl) (mutely_answer _ asker _))
  | observe observer reaction => exact pages_observe m asker hd observer reaction
  | openSink sink errorColor => exact pages_of_mutely rfl (mutely_trans (mutely_put rfl) (mutely_answer _ asker _))
  | openWorker worker grammar options token =>
    simp only [Machine.onDocument, Machine.withGrammar]
    split
    · exact pages_of_mutely rfl (mutely_answer m asker _)
    · rename_i g
      exact pages_openWorker m asker _ id worker g options token

theorem pages_write (m : Machine) (asker : Asker) {name : String} {id : Nat} {sink : Sink}
    (hs : m.session.names.sinks.get? name = some (id, sink)) (call : SinkCall) (event : Event) :
    m.Pages (.call (.onSink name call) asker) (m.write asker id sink event) := by
  unfold Machine.write
  split
  · exact pages_of_mutely rfl (mutely_answer m asker _)
  · rename_i b hb
    have ha : (m.put (m.session.setBuffer id b)).agenda = [] ++ m.agenda := rfl
    exact pages_answer ha (.write hs (Sink.texts_write hb)) asker .accepted

theorem pages_onSink (m : Machine) (asker : Asker) {name : String} {id : Nat} {sink : Sink}
    (hs : m.session.names.sinks.get? name = some (id, sink)) (call : SinkCall) :
    m.Pages (.call (.onSink name call) asker) (m.onSink asker id sink call) := by
  cases call with
  | matched made =>
    cases made with
    | error e => exact pages_of_mutely rfl (mutely_answer m asker _)
    | ok found => exact pages_write m asker hs _ _
  | unmatched made position =>
    cases made with
    | error e => exact pages_of_mutely rfl (mutely_answer m asker _)
    | ok element => exact pages_write m asker hs _ _
  | aborted fault position => exact pages_of_mutely rfl (mutely_push (by simp [Task.isMute]))

/-! ### Calls on slots -/

theorem pages_execute (m : Machine) (asker : Asker) (c : Call) (slot command : Nat) :
    m.Pages (.call c asker) (m.execute asker slot command) := by
  unfold Machine.execute
  split
  · exact pages_of_mutely rfl (mutely_answer m asker _)
  · exact pages_onSlot (pages_of_mutely rfl (mutely_trans (mutely_put rfl) (mutely_answer _ asker _)))
  · exact pages_onSlot (pages_of_mutely rfl (mutely_trans (mutely_put rfl) (mutely_answer _ asker _)))
  · exact pages_of_mutely rfl (mutely_push (by simp [Task.isMute]))

theorem pages_onPlace (m : Machine) (asker : Asker) (c : Call) (slot : Nat) (call : PlaceCall Call) :
    m.Pages (.call c asker) (m.onPlace asker slot call) := by
  cases call with
  | queue script delay => exact pages_of_mutely rfl (mutely_trans (mutely_put rfl) (mutely_push (by simp [Task.isMute])))
  | queueParse worker delay =>
    refine pages_of_mutely rfl (mutely_find ?_)
    intro _ _
    exact mutely_trans (mutely_put rfl) (mutely_push (by simp [Task.isMute]))
  | start delay => exact pages_onSlot (pages_of_mutely rfl (mutely_trans (mutely_put rfl) (mutely_answer _ asker _)))
  | pause => exact pages_onSlot (pages_of_mutely rfl (mutely_trans (mutely_put rfl) (mutely_answer _ asker _)))
  | stop => exact pages_of_mutely rfl (mutely_push (by simp [Task.isMute]))
  | execute command => exact pages_execute m asker c slot command
  | status => exact pages_onSlot (pages_of_mutely rfl (mutely_answer m asker _))

theorem mutely_openPlace (m : Machine) (asker : Asker) (name : String) : m.Mutely (m.openPlace asker name) := by
  refine ⟨rfl, _, rfl, ?_⟩
  intro x hx
  rcases List.mem_append.1 hx with hx | hx
  · obtain ⟨slot, -, rfl⟩ := List.mem_map.1 hx
    rfl
  · obtain rfl := List.mem_singleton.1 hx
    rfl

theorem mutely_dropPlace (m : Machine) (asker : Asker) (name : String) : m.Mutely (m.dropPlace asker name) := by
  unfold Machine.dropPlace
  split
  · exact mutely_answer m asker _
  · exact mutely_trans (mutely_put rfl) (mutely_push (by simp [Task.isMute]))

/-! ### Calls on handlers -/

theorem document_of_resolve {p : HandlerPlan Nat} {languages : Languages} {document : Nat} {g : Grammar}
    (h : p.resolve languages = .ok (document, g)) : p.document = some document := by
  unfold HandlerPlan.resolve at h
  split at h
  · cases h
  · split at h
    · split at h
      · cases h
      · cases h
      · rename_i source hp _
        cases hr : source.resolve languages with
        | error e => simp [hr, Except.map] at h
        | ok g' =>
          simp only [hr, Except.map, Except.ok.injEq, Prod.mk.injEq] at h
          rw [hp, h.1]
    · cases h

theorem pages_makeHandler (m : Machine) (asker : Asker) {name : String} {plan : HandlerPlan String} {p : HandlerPlan Nat}
    (hp : ∀ document, p.document = some document → ∃ doc, m.session.names.documents.get? doc = some document) :
    m.Pages (.call (.handler name plan) asker) (m.makeHandler asker name p) := by
  unfold Machine.makeHandler
  split
  · exact pages_of_mutely rfl (mutely_answer m asker _)
  · exact pages_of_mutely rfl (mutely_answer m asker _)
  · rename_i document g hr
    obtain ⟨doc, hd⟩ := hp document (document_of_resolve hr)
    exact .inr ⟨_, rfl, .attach hd⟩

theorem pages_onHandler (m : Machine) (asker : Asker) {name : String} {id : Nat} {h : Handler}
    (hn : m.session.names.handlers.get? name = some id) (hh : m.session.handlers[id]? = some h) (call : HandlerCall) :
    m.Pages (.call (.onHandler name call) asker) (m.onHandler asker id h call) := by
  cases call with
  | reparse =>
    simp only [Machine.onHandler]
    split
    · rename_i he
      exact .inr ⟨_, rfl, .reparse hn hh he⟩
    · exact pages_of_mutely rfl (mutely_push (by simp [Task.isMute]))
  | enable on =>
    simp only [Machine.onHandler]
    split
    · exact pages_of_mutely rfl (mutely_answer m asker _)
    · exact .inr ⟨_, rfl, .enable hn hh⟩
  | dispose => exact .inr ⟨_, rfl, .disposeCall⟩
  | execute command => exact pages_execute m asker _ h.slot command

theorem pages_dropHandler (m : Machine) (asker : Asker) (c : Call) (name : String) :
    m.Pages (.call c asker) (m.dropHandler asker name) := by
  unfold Machine.dropHandler
  split
  · exact pages_of_mutely rfl (mutely_answer m asker _)
  · exact .inr ⟨_, rfl, .disposeCall⟩

/-! ### Watchers and handlers -/

theorem mutely_script (m : Machine) (calls : List Call) : m.Mutely (m.script calls) := by
  cases calls with
  | nil => exact mutely_refl m
  | cons c rest => exact mutely_push (by simp [Task.isMute])

theorem pages_raise (m : Machine) (id : Nat) (event : BufferEvent) : m.Pages (.raise id event) (m.raise id event) :=
  .inr ⟨_, rfl, .raise fun _ => rfl⟩

theorem pages_deliver (m : Machine) (event : BufferEvent) (told : Option Watcher) (rest : List Watcher) :
    m.Pages (.deliver event told rest) (m.deliver event rest) := by
  cases rest with
  | nil => exact .inr ⟨[], rfl, .delivered⟩
  | cons w rest => exact .inr ⟨_, rfl, .deliver⟩

/-- An observer that is told of an event has heard of it, and its reaction may be used up. -/
theorem mutely_notify (m : Machine) (event : BufferEvent) (id : Nat) : m.Mutely (m.notify event (.observer id)) := by
  simp only [Machine.notify]
  split
  · exact mutely_refl m
  · split
    · rename_i o _ _
      refine mutely_trans (mutely_put rfl) (mutely_trans (mutely_put ?_) (mutely_push (by simp [Task.isMute])))
      have hw : (m.session.observers.modify id fun o =>
            { o with reaction := { o.reaction with times := o.reaction.times - 1 } }).map (fun o => (o.document, o.subscription)) =
          m.session.observers.map fun o => (o.document, o.subscription) := by
        apply List.ext_getElem?
        intro i
        by_cases hi : id = i <;> cases ho : m.session.observers[i]? <;> simp [hi, ho]
      simp only [Machine.put, Session.note, Session.desk, hw]
    · exact mutely_put rfl

theorem pages_notify (m : Machine) (event : BufferEvent) (watcher : Watcher) :
    m.Pages (.notify watcher event) (m.notify event watcher) := by
  cases watcher with
  | observer id =>
    obtain ⟨hd, new, ha, hn⟩ := mutely_notify m event id
    exact .inr ⟨new, ha, by rw [hd]; exact .notifyObserver hn⟩
  | handler id =>
    simp only [Machine.notify]
    split
    · rename_i hh
      exact .inr ⟨[], rfl, .notifyIdle (by simp [hh])⟩
    · rename_i h hh
      split
      · rename_i he
        exact .inr ⟨_, rfl, .notifyHandler hh he.1⟩
      · rename_i he
        refine .inr ⟨[], rfl, .notifyIdle ?_⟩
        intro h' hh'
        rw [hh] at hh'
        obtain rfl := Option.some.inj hh'
        exact he

theorem mutely_complain (m : Machine) (document : Nat) (source message : String) :
    m.Mutely (m.complain document source message) := by
  unfold Machine.complain
  split
  · exact mutely_refl m
  · exact mutely_trans (mutely_put rfl) (mutely_push (by simp [Task.isMute]))

theorem pages_requestParse (m : Machine) (id : Nat) : m.Pages (.requestParse id) (m.requestParse id) := by
  unfold Machine.requestParse
  split
  · rename_i hh
    exact .inr ⟨[], rfl, .requestNothing (by simp [hh])⟩
  · rename_i h hh
    split
    · rename_i hc
      exact .inr ⟨[], rfl, .requestNothing (by simpa [hh] using hc)⟩
    · exact .inr ⟨_, rfl, .request hh⟩

theorem pages_dispose (m : Machine) (id : Nat) : m.Pages (.dispose id) (m.dispose id) := by
  unfold Machine.dispose
  split
  · exact .inr ⟨[], rfl, .disposeNothing⟩
  · rename_i h hh
    split
    · exact .inr ⟨[], rfl, .disposeNothing⟩
    · rename_i number hs
      exact .inr ⟨_, rfl, .dispose hh hs⟩

/-! ### Work -/

theorem mutely_stop (m : Machine) (slot : Nat) (hb : ¬ (m.session.scheduler.slot slot).barred = true) :
    m.Mutely (m.stop slot) := by
  unfold Machine.stop Machine.onSlot
  rw [if_neg hb]
  refine mutely_trans (mutely_put rfl) (mutely_push ?_)
  intro x hx
  obtain ⟨w, -, rfl⟩ := List.mem_map.1 hx
  rfl

theorem pages_stop (m : Machine) (slot : Nat) : m.Pages (.stop slot) (m.stop slot) := by
  by_cases hb : (m.session.scheduler.slot slot).barred = true
  · exact .inl (by simp [Machine.stop, Machine.onSlot, hb])
  · exact pages_of_mutely rfl (mutely_stop m slot hb)

theorem pages_install (m : Machine) (slot : Nat) (w : Worker) (delay : Nat) :
    m.Pages (.install slot w delay) (m.install slot w delay) := by
  refine pages_onSlot (pages_of_mutely rfl ?_)
  split
  · exact mutely_put rfl
  · exact mutely_trans (mutely_put rfl) (mutely_push (by simp [Task.isMute]))

theorem pages_beginRound (m : Machine) (d : Drive) : m.Pages (.beginRound d) (m.beginRound d) := by
  unfold Machine.beginRound
  split
  · exact pages_of_mutely rfl (mutely_answer m _ _)
  · split
    · exact .inl rfl
    · exact pages_of_mutely rfl (mutely_push (by simp [Task.isMute]))

theorem pages_endRound (m : Machine) (r : Round) : m.Pages (.round r) (m.endRound r) := by
  unfold Machine.endRound
  dsimp only
  split
  · exact .inr ⟨_, rfl, .pass (.inr (.inl ⟨_, rfl⟩))⟩
  · have ha : m.agenda = [] ++ m.agenda := rfl
    exact pages_answer ha (.pass (.inl rfl)) _ _

theorem pages_round (m : Machine) (r : Round) : m.Pages (.round r) (m.round r) := by
  unfold Machine.round
  split
  · exact pages_endRound m r
  · rename_i slot rest _
    dsimp only
    split
    · rename_i scheduler w g hc
      have hstep : (m.session.scheduler.claim slot r.now).2 = .step w g := by rw [hc]
      obtain ⟨i, body⟩ := w
      cases body with
      | scripted script begun => exact .inr ⟨_, rfl, .play hstep⟩
      | parsing id job token => exact .inr ⟨_, rfl, .work hstep⟩
    · exact .inr ⟨_, rfl, .pass (.inr (.inr ⟨_, rfl⟩))⟩

theorem pages_stepWorker (m : Machine) (asker : Asker) {name : String} {w : Worker}
    (hw : m.session.names.workers.get? name = some w) :
    m.Pages (.call (.stepWorker name) asker)
      ((m.rename fun names => { names with workers := names.workers.erase name }).work w (.putBack asker name)) := by
  obtain ⟨i, body⟩ := w
  cases body with
  | scripted script begun =>
    refine pages_of_mutely rfl (mutely_trans (mutely_put rfl) (mutely_trans (mutely_put rfl) (mutely_push ?_)))
    simp [Task.isMute]
  | parsing id job token => exact .inr ⟨_, rfl, .rehearse hw⟩

theorem mutely_conclude (m : Machine) (r : Round) (slot g : Nat) (w : Worker) (outcome : Outcome) :
    m.Mutely (m.conclude r slot g w outcome) := by
  refine mutely_trans (mutely_put rfl) (mutely_push ?_)
  intro x hx
  rcases List.mem_append.1 hx with hx | hx
  · obtain ⟨old, -, rfl⟩ := List.mem_map.1 hx
    rfl
  · obtain rfl := List.mem_singleton.1 hx
    rfl

theorem mutely_close (m : Machine) (r : Round) (slot : Nat) (c : Conclusion Worker) : m.Mutely (m.close r slot c) := by
  obtain ⟨m', hs, hclose⟩ := m.close_cases r slot c
  have h : m.Mutely m' := by
    cases hs with
    | returned hc => exact mutely_put rfl
    | finished hc hf => exact mutely_put rfl
    | unfinished hc hf => exact mutely_refl m
  rcases hclose with ⟨reason, -, he⟩ | ⟨-, he⟩
  · rw [he]
    exact mutely_trans h (mutely_answer _ _ _)
  · rw [he]
    exact mutely_trans h (mutely_push (by simp [Task.isMute]))

/-! ### Calls -/

theorem pages_perform (m : Machine) (asker : Asker) (c : Call) : m.Pages (.call c asker) (m.perform asker c) := by
  have quiet {m' : Machine} (h : m.Mutely m') : m.Pages (.call c asker) m' := pages_of_mutely rfl h
  cases c with
  | document doc text site =>
    have ha : ((m.put { m.session with documents := m.session.documents ++ [⟨.ofText text, .empty, site⟩] }).rename fun names =>
        { names with documents := names.documents.insert doc m.session.documents.length }).agenda = [] ++ m.agenda := rfl
    exact pages_answer ha .document asker .done
  | onDocument doc call =>
    simp only [Machine.perform, Machine.find]
    split
    · exact quiet (mutely_answer m asker _)
    · rename_i id hd
      exact pages_onDocument m asker hd call
  | readSnapshot stream query => exact quiet (mutely_find fun _ _ => mutely_answer m asker _)
  | unobserve name =>
    simp only [Machine.perform, Machine.find]
    split
    · exact quiet (mutely_answer m asker _)
    · rename_i o ho
      have hw : (o.document, o.subscription) ∈ m.session.desk.watching := by
        obtain ⟨id, -, hid⟩ := Option.bind_eq_some_iff.1 ho
        exact List.mem_map.2 ⟨o, List.mem_of_getElem? hid, rfl⟩
      have ha : (m.put (m.session.unsubscribe o.document o.subscription).1).agenda = [] ++ m.agenda := rfl
      exact pages_answer ha (.unobserve hw) asker _
  | release name => exact quiet (mutely_trans (mutely_letGo m name) (mutely_answer _ asker _))
  | drive kind rounds => exact quiet (mutely_push (by simp [Task.isMute]))
  | options => exact quiet (mutely_answer m asker _)
  | advance time => exact quiet (mutely_trans (mutely_put rfl) (mutely_answer _ asker _))
  | setClock time => exact quiet (mutely_trans (mutely_put rfl) (mutely_answer _ asker _))
  | place name => exact quiet (mutely_openPlace m asker name)
  | dropPlace name => exact quiet (mutely_dropPlace m asker name)
  | onPlace name call =>
    simp only [Machine.perform, Machine.find]
    split
    · exact quiet (mutely_answer m asker _)
    · rename_i slot _
      exact pages_onPlace m asker _ slot call
  | register made extensions =>
    exact quiet (mutely_withGrammar fun _ _ => mutely_withGrammar fun _ _ =>
      mutely_trans (mutely_put rfl) (mutely_answer _ asker _))
  | registerDefinition text =>
    exact quiet (mutely_withGrammar fun _ _ => mutely_trans (mutely_put rfl) (mutely_answer _ asker _))
  | handler name plan =>
    simp only [Machine.perform]
    split
    · exact pages_makeHandler m asker (by simp [HandlerPlan.withDocument])
    · rename_i doc _
      simp only [Machine.find]
      split
      · exact quiet (mutely_answer m asker _)
      · rename_i id hd
        refine pages_makeHandler m asker ?_
        intro document hdoc
        obtain rfl := Option.some.inj hdoc
        exact ⟨doc, hd⟩
  | dropHandler name => exact pages_dropHandler m asker _ name
  | onHandler name call =>
    simp only [Machine.perform, Machine.find]
    split
    · exact quiet (mutely_answer m asker _)
    · rename_i id hn
      split
      · exact quiet (mutely_answer m asker _)
      · rename_i h hh
        exact pages_onHandler m asker hn hh call
  | token name parent =>
    have made (parents : List Nat) : m.Pages (.call (.token name parent) asker)
        (((m.put (m.session.freshToken parents).1).rename fun names =>
          { names with tokens := names.tokens.insert name ⟨m.session.nextToken :: parents⟩ }).answer asker .done) := by
      have ha : ((m.put (m.session.freshToken parents).1).rename fun names =>
          { names with tokens := names.tokens.insert name ⟨m.session.nextToken :: parents⟩ }).agenda = [] ++ m.agenda := rfl
      exact pages_answer ha .token asker .done
    cases parent with
    | none => exact made []
    | some parent =>
      simp only [Machine.perform, Machine.find]
      split
      · exact quiet (mutely_answer m asker _)
      · rename_i t _
        exact made t.lineage
  | cancel name =>
    simp only [Machine.perform, Machine.find]
    split
    · exact quiet (mutely_answer m asker _)
    · rename_i t ht
      have ha : (m.put (m.session.cancel t)).agenda = [] ++ m.agenda := rfl
      exact pages_answer ha (.cancelCall ht) asker .done
  | stepWorker name =>
    simp only [Machine.perform, Machine.find]
    split
    · exact quiet (mutely_answer m asker _)
    · rename_i w hw
      exact pages_stepWorker m asker hw
  | onSink name call =>
    simp only [Machine.perform, Machine.find]
    split
    · exact quiet (mutely_answer m asker _)
    · rename_i found hs
      exact pages_onSink m asker hs call

end PageAux

open PageAux

/-- Every task turns a page or makes the machine crash. -/
theorem Machine.run_page (m : Machine) (t : Task) : m.Pages t (m.run t) := by
  cases t with
  | call c asker => exact pages_perform m asker c
  | answer asker reply => exact pages_of_mutely rfl (mutely_answer m asker reply)
  | script calls => exact pages_of_mutely rfl (mutely_script m calls)
  | raise document event => exact pages_raise m document event
  | deliver event told rest => exact pages_deliver m event told rest
  | notify watcher event => exact pages_notify m event watcher
  | complain document source message => exact pages_of_mutely rfl (mutely_complain m document source message)
  | clear document => exact .inr ⟨[], rfl, .clear⟩
  | requestParse handler => exact pages_requestParse m handler
  | dispose handler => exact pages_dispose m handler
  | cancel token => exact .inr ⟨[], rfl, .cancel⟩
  | stop slot => exact pages_stop m slot
  | discard w => exact pages_of_mutely rfl (mutely_trans (mutely_put rfl) (mutely_push (by simp [Task.isMute])))
  | install slot w delay => exact pages_install m slot w delay
  | seat slot w at_ => exact pages_of_mutely rfl (mutely_put rfl)
  | beginRound d => exact pages_beginRound m d
  | round r => exact pages_round m r
  | conclude r slot g w outcome => exact pages_of_mutely rfl (mutely_conclude m r slot g w outcome)
  | close r slot c => exact pages_of_mutely rfl (mutely_close m r slot c)
  | putBack asker name w outcome => exact pages_of_mutely rfl (mutely_trans (mutely_put rfl) (mutely_answer _ asker _))

end LiveHighlight
