import LiveHighlight.Proofs.Session.Vacancy

/-!
# Disposing of a handler is final

Once a handler is disposed of, whoever disposed of it and wherever, its slot is free, empty and off the list of pending ones,
and nothing that is done through the handler has an effect any more (`Machine.Inert`): it queues no parse, changes no document
and raises no event, and disposing of it again does nothing. `Course.disposed` says so of every moment after the disposal.

The slot has the one exception of every stop: it recalls a worker whose step was under way when code that an error site called
had let work run. Then it holds a parse that is cancelled, and is free and off the list until it is started, which a command can do
(`Course.exists_rearmed`).
-/

namespace LiveHighlight

/-- Whether a task is done through the handler `h`, or at its slot `k`. -/
def Session.Involves (s : Session) (h k : Nat) : Task → Prop
  | .call (.onHandler name _) _ | .call (.dropHandler name) _ => s.names.handlers.get? name = some h
  | .notify (.handler i) _ | .requestParse i | .dispose i => i = h
  | .round r => r.due.head? = some k
  | .stop slot | .conclude _ slot _ _ _ | .close _ slot _ => slot = k
  | _ => False

namespace Machine

/-- `m'` comes from `m` without a change of documents, handlers and tokens. The tasks that it leaves raise no event and take no
annotations off, or ask the handler once more for something. -/
def Idly (h : Nat) (m m' : Machine) : Prop :=
  m'.session.desk = m.session.desk ∧
    ∃ new, m'.agenda = new ++ m.agenda ∧ ∀ x ∈ new, x.isMute = true ∨ x = .requestParse h ∨ x = .dispose h

/-- Whether nothing has an effect any more that is done through the handler `h`, whose slot is `k`. -/
structure Inert (h k : Nat) (m : Machine) : Prop where
  /-- It queues no parse. -/
  unasked : ∀ i, ¬ m.Requests h i
  /-- Calls on it, events that it is told of, and rounds that come to its slot change no document and raise no event. -/
  idle : ∀ t rest, m.agenda = t :: rest → m.session.Involves h k t → m.step.Crashed ∨ Idly h { m with agenda := rest } m.step
  /-- Disposing of it again does nothing. -/
  again : ∀ rest, m.agenda = .dispose h :: rest → m.step = { m with agenda := rest }

end Machine

namespace DisposalAux

open FateAux VacancyAux

variable {later earlier past : List Machine} {c p m m' : Machine} {t : Task} {rest : List Task} {h k : Nat} {hd hd' : Handler}
  {token : CancelToken}

/-! ### What is done through a handler that is disposed of -/

theorem idly_of_mutely (hm : m.Mutely m') : m.Idly h m' := by
  obtain ⟨hk, new, ha, hn⟩ := hm
  exact ⟨hk, new, ha, fun x hx => .inl (hn x hx)⟩

theorem idly_of_nothing (he : m' = m) : m.Idly h m' := by
  subst he
  exact idly_of_mutely (PageAux.mutely_refl _)

/-- A call on a handler that is disposed of is answered, or hands on to what has no effect either. -/
theorem idly_onHandler (disposed : hd.isDisposed = true) (asker : Asker) (call : HandlerCall) :
    (m.onHandler asker h hd call).Crashed ∨ m.Idly h (m.onHandler asker h hd call) := by
  have onSlot {go : Machine} (hgo : m.Idly h go) : (m.onSlot hd.slot go).Crashed ∨ m.Idly h (m.onSlot hd.slot go) := by
    unfold Machine.onSlot
    split
    · exact .inl ⟨rfl, rfl⟩
    · exact .inr hgo
  cases call with
  | reparse =>
    refine .inr ⟨rfl, _, rfl, fun x hx => ?_⟩
    rcases List.mem_append.1 hx with hx | hx
    · split at hx
      · exact .inr (.inl (List.mem_singleton.1 hx))
      · cases hx
    · exact .inl (by rw [List.mem_singleton.1 hx]; rfl)
  | enable on =>
    simp only [Machine.onHandler, disposed, if_true]
    exact .inr (idly_of_mutely (PageAux.mutely_answer ..))
  | dispose =>
    refine .inr ⟨rfl, _, rfl, fun x hx => ?_⟩
    rcases List.mem_pair.1 hx with rfl | rfl
    · exact .inr (.inr rfl)
    · exact .inl rfl
  | execute command =>
    simp only [Machine.onHandler, Machine.execute]
    split
    · exact .inr (idly_of_mutely (PageAux.mutely_answer ..))
    · exact onSlot (idly_of_mutely (PageAux.mutely_trans (PageAux.mutely_put rfl) (PageAux.mutely_answer ..)))
    · exact onSlot (idly_of_mutely (PageAux.mutely_trans (PageAux.mutely_put rfl) (PageAux.mutely_answer ..)))
    · exact .inr (idly_of_mutely (PageAux.mutely_push (by simp [Task.isMute])))

/-- Putting back the lines that a document has changes nothing. -/
theorem setBuffer_unchanged (s : Session) (d : Nat) : s.setBuffer d (s.document d).buffer = s := by
  have hd : s.documents.modify d (fun doc => { doc with buffer := (s.document d).buffer }) = s.documents := by
    refine List.ext_getElem? fun i => ?_
    rw [List.getElem?_modify]
    by_cases hi : d = i
    · subst hi
      cases hdoc : s.documents[d]? with
      | none => simp
      | some doc => simp [Session.document, hdoc]
    · cases s.documents[i]? <;> simp [hi]
  exact congrArg (fun documents => { s with documents }) hd

/-- A round finds the handler's slot idle, or has a parse that is cancelled take its last step. -/
theorem idly_round {r : Round} (hr : r.due.head? = some k) (cancelled : m.session.isCancelled hd.token = true)
    (lodgers : ∀ w, (m.session.scheduler.slot k).worker = some w → w.Parses hd fun _ => True) : m.Idly h (m.round r) := by
  obtain ⟨due, hdue⟩ := List.head?_eq_some_iff.1 hr
  have pass (s : Scheduler Worker) (r' : Round) : m.Idly h ((m.schedule s).push [.round r']) :=
    idly_of_mutely (PageAux.mutely_trans (PageAux.mutely_put rfl) (PageAux.mutely_push (by simp [Task.isMute])))
  simp only [Machine.round, hdue]
  split
  · next s w g hclaim =>
    have hstep : (m.session.scheduler.claim k r.now).2 = .step w g := by rw [hclaim]
    obtain ⟨i, job, rfl, -⟩ := lodgers w (Scheduler.claim_step hstep).2.1
    have hcancelled : (m.schedule s).session.isCancelled hd.token = true := cancelled
    simp only [Machine.work, hcancelled, ParseJob.step, if_true]
    have hdesk := congrArg Session.desk (setBuffer_unchanged ((m.schedule s).session.note (.parsed i job.phase)) hd.document)
    exact ⟨hdesk, [_], rfl, by simp [Task.isMute]⟩
  · exact pass _ _

/-- What a handler is asked for in vain. -/
theorem run_request_cancelled (held : m.session.handlers[h]? = some hd) (cancelled : m.session.isCancelled hd.token = true) :
    m.requestParse h = m := by
  simp [Machine.requestParse, held, cancelled]

theorem run_dispose_disposed (held : m.session.handlers[h]? = some hd) (disposed : hd.isDisposed = true) :
    m.dispose h = m := by
  simp [Machine.dispose, held, Option.isNone_iff_eq_none.1 disposed]

/-- What is done through a handler that is disposed of and cancelled changes no document and raises no event. -/
theorem idly_involved (run : Machine.Course past m) (held : m.session.handlers[h]? = some hd) (disposed : hd.isDisposed = true)
    (cancelled : m.session.isCancelled hd.token = true) (ha : m.agenda = t :: rest) (involved : m.session.Involves h hd.slot t) :
    ({ m with agenda := rest }.run t).Crashed ∨ Machine.Idly h { m with agenda := rest } ({ m with agenda := rest }.run t) := by
  cases t with
  | call c asker =>
    cases c with
    | onHandler name call =>
      have hname : m.session.names.handlers.get? name = some h := involved
      simp only [Machine.run, Machine.perform, hname, held, Machine.find]
      exact idly_onHandler disposed asker call
    | dropHandler name =>
      have hname : m.session.names.handlers.get? name = some h := involved
      simp only [Machine.run, Machine.perform, Machine.dropHandler, hname]
      refine .inr ⟨rfl, _, rfl, fun x hx => ?_⟩
      rcases List.mem_pair.1 hx with rfl | rfl
      · exact .inr (.inr rfl)
      · exact .inl rfl
    | _ => cases involved
  | notify watcher event =>
    cases watcher with
    | observer => cases involved
    | handler i =>
      obtain rfl : i = h := involved
      simp only [Machine.run, Machine.notify, held]
      split
      · exact .inr ⟨rfl, [_], rfl, by simp⟩
      · exact .inr (idly_of_nothing rfl)
  | requestParse i =>
    obtain rfl : i = h := involved
    exact .inr (idly_of_nothing (run_request_cancelled held cancelled))
  | dispose i =>
    obtain rfl : i = h := involved
    exact .inr (idly_of_nothing (run_dispose_disposed held disposed))
  | round r =>
    have quarters := (run.quarters held).resolve_left (Machine.not_crashed_of_agenda ha)
    exact .inr (idly_round involved cancelled fun w hw => quarters.lodgers w (.inl hw))
  | stop | conclude | close =>
    -- stops and the ends of steps have nothing to do with documents, whosever slot it is
    rcases run.page ha with hc | ⟨new, hn, -, page⟩
    · exact .inl hc
    · refine .inr (idly_of_mutely ?_)
      generalize hk : ({ m with agenda := rest }.run _).session.desk = k' at page
      cases page with
      | quiet _ hmute => exact ⟨hk, new, hn, hmute⟩
  | _ => cases involved

/-- A handler that is disposed of and cancelled is inert. -/
theorem inert (run : Machine.Course past m) (held : m.session.handlers[h]? = some hd) (disposed : hd.isDisposed = true)
    (cancelled : m.session.isCancelled hd.token = true) : m.Inert h hd.slot where
  unasked i hr := by
    obtain ⟨hd', rest, -, held', safe, -⟩ := hr
    obtain rfl := Option.some.inj (held.symm.trans held')
    rw [cancelled] at safe
    cases safe
  idle t rest ha involved := by
    rw [Machine.step_eq ha]
    exact idly_involved run held disposed cancelled ha involved
  again rest ha := by
    rw [Machine.step_eq ha]
    exact run_dispose_disposed held disposed

/-! ### The disposal -/

/-- Whether a machine comes from another one by the disposal of a handler: the handler is not subscribed any more, its slot is
to be stopped and its token to be cancelled. -/
structure Disposing (h : Nat) (hd : Handler) (rest : List Task) (p n : Machine) : Prop where
  agenda : n.agenda = .stop hd.slot :: .cancel hd.token :: rest
  scheduler : n.session.scheduler = p.session.scheduler
  held : n.session.handlers[h]? = some hd
  ended : hd.isDisposed = true

theorem run_dispose (rest : List Task) (held : p.session.handlers[h]? = some hd) (live : hd.isDisposed = false) :
    ∃ hd', hd.Later hd' ∧ Disposing h hd' rest p ({ p with agenda := rest }.run (.dispose h)) := by
  cases hs : hd.subscription with
  | none => simp [Handler.isDisposed, hs] at live
  | some number =>
    refine ⟨{ hd with subscription := none }, ⟨rfl, rfl, rfl, rfl, rfl, by simp [Handler.isDisposed]⟩, ?_⟩
    simp only [Machine.run, Machine.dispose, held, hs]
    refine ⟨rfl, rfl, ?_, rfl⟩
    simp [Machine.push, Machine.put, Session.updateHandler, Session.unsubscribe, Session.updateDocument, held]

theorem Disposing.agenda_ne {n : Machine} (hn : Disposing h hd rest p n) : n.agenda ≠ rest := by
  intro he
  have hlength := congrArg List.length (hn.agenda.symm.trans he)
  simp only [List.length_cons] at hlength
  omega

theorem Disposing.recalls {n : Machine} (hn : Disposing h hd rest p n) (ha : p.agenda = .dispose h :: rest)
    (hr : n.Recalls k) : p.Recalls k := by
  refine recalls_of hn.scheduler (fun x hx hc => ?_) hr
  rw [hn.agenda] at hx
  rw [ha]
  rcases List.mem_cons.1 hx with rfl | hx
  · cases hc
  · rcases List.mem_cons.1 hx with rfl | hx
    · cases hc
    · exact .tail _ hx

/-- Numbers of subscriptions and tokens are given once on every course. -/
theorem numbered (run : Machine.Course past m) : m.Crashed ∨ m.session.desk.Numbered m.agenda := by
  induction run with
  | new options => exact .inr (Desk.numbered_new options)
  | ask c run idle ih =>
    have hn := ih.resolve_left idle.not_crashed
    rw [idle.1] at hn
    exact .inr (hn.call c)
  | step run ha ih =>
    have hn := ih.resolve_left (Machine.not_crashed_of_agenda ha)
    rw [ha] at hn
    rcases run.page ha with hc | ⟨new, hnew, -, page⟩
    · exact .inl hc
    · rw [hnew]
      exact .inr (page.numbered hn)

/-- What is cancelled is so for good. -/
theorem cancelled_along (run : Machine.Course (later ++ c :: earlier) m) (hc : c.session.isCancelled token = true) :
    m.Crashed ∨ m.session.isCancelled token = true := by
  refine run.along (I := fun q => q.Crashed ∨ q.session.isCancelled token = true) (.inr hc) ?_ ?_
  · intro q call hq idle
    exact .inr (hq.resolve_left idle.not_crashed)
  · intro past q t rest run hq ha
    rcases run.page ha with hc | ⟨new, -, -, page⟩
    · exact .inl hc
    · exact .inr (RetirementAux.isCancelled_page page (hq.resolve_left (Machine.not_crashed_of_agenda ha)))

/-- A handler's token that is to be cancelled is cancelled from then on. -/
theorem cancelled_after (run : Machine.Course (later ++ c :: earlier) m) (ha : c.agenda = .cancel hd.token :: rest)
    (held : c.session.handlers[h]? = some hd) : m.Crashed ∨ m.session.isCancelled hd.token = true := by
  obtain ⟨n, htoken, -⟩ := ((numbered run.before).resolve_left (Machine.not_crashed_of_agenda ha)).tokens h hd held
  have hnext : ({ c with agenda := rest }.run (.cancel hd.token)).session.isCancelled hd.token = true := by
    simp [Machine.run, Machine.put, Session.cancel, Session.isCancelled, htoken]
  rcases next_split run ha with ⟨rfl, -⟩ | ⟨later, rfl⟩
  · exact .inr hnext
  · rw [List.append_assoc, List.singleton_append] at run
    exact cancelled_along run hnext

/-- Once a handler is disposed of, it is so for good. -/
theorem disposed_later (later : hd.Later hd') (disposed : hd.isDisposed = true) : hd'.isDisposed = true := by
  cases live : hd'.isDisposed with
  | true => rfl
  | false =>
    rw [later.live live] at disposed
    cases disposed

end DisposalAux

open DisposalAux VacancyAux

namespace Machine

namespace Course

variable {later earlier : List Machine} {p m : Machine} {rest : List Task} {h : Nat} {hd : Handler}

/-- A handler is cancelled once its token was to be cancelled. -/
theorem cancels {c : Machine} (run : Course (later ++ p :: earlier) m) (held : p.session.handlers[h]? = some hd) (hc : c ∈ later)
    (ha : c.agenda = .cancel hd.token :: rest) : m.Crashed ∨ m.session.isCancelled hd.token = true := by
  obtain ⟨after, before, rfl⟩ := List.append_of_mem hc
  rw [List.append_assoc, List.cons_append] at run
  obtain ⟨hd', held', later'⟩ := FateAux.handler_later run.before held
  rw [← later'.token] at ha ⊢
  exact cancelled_after run ha held'

/-- When its slot is to be stopped and its token is to be cancelled, a handler is cancelled as soon as the stop is over. -/
theorem leaves (run : Course (later ++ p :: earlier) m) (ha : p.agenda = .stop hd.slot :: .cancel hd.token :: rest)
    (held : p.session.handlers[h]? = some hd) :
    m.Crashed ∨ (∃ pre, m.agenda = pre ++ .cancel hd.token :: rest ∧ ∀ x ∈ pre, x.isSilent = true) ∨
      m.session.isCancelled hd.token = true := by
  have quarters := (run.before.quarters held).resolve_left (not_crashed_of_agenda ha)
  have silent : ∀ w, (p.session.scheduler.slot hd.slot).worker = some w → w.onDrop = [] :=
    fun w hw => HandlerSlotAux.onDrop_of_parses (quarters.lodgers w (.inl hw))
  rcases run.stops ha silent with hc | hpre | ⟨c, hc, hnext⟩
  · exact .inl hc
  · exact .inr (.inl hpre)
  · exact (run.cancels held hc hnext).imp_right .inr

/-- From then on it queues no parse. -/
theorem not_requests (run : Course (later ++ p :: earlier) m) (ha : p.agenda = .stop hd.slot :: .cancel hd.token :: rest)
    (held : p.session.handlers[h]? = some hd) (i : Nat) : ¬ m.Requests h i := by
  rintro ⟨hd', rest', ha', held', safe, -⟩
  rcases run.leaves ha held with hc | ⟨pre, hpre, hp⟩ | cancelled
  · exact not_crashed_of_agenda ha' hc
  · rw [ha'] at hpre
    cases pre with
    | nil => cases hpre
    | cons x pre =>
      obtain ⟨rfl, -⟩ := List.cons.inj hpre
      cases hp _ (.head _)
  · obtain ⟨hd'', held'', later''⟩ := FateAux.handler_later run held
    obtain rfl := Option.some.inj (held'.symm.trans held'')
    rw [later''.token, cancelled] at safe
    cases safe

/-- Once this is over, the handler is inert, and its slot stays as the stop left it. -/
theorem left (run : Course (later ++ p :: earlier) m) (ha : p.agenda = .stop hd.slot :: .cancel hd.token :: rest)
    (held : p.session.handlers[h]? = some hd) (disposed : hd.isDisposed = true) (alone : ∀ x ∈ rest, x.settles hd.slot = false)
    (returned : ∃ q ∈ m :: later, q.agenda = rest) :
    m.Crashed ∨ m.Inert h hd.slot ∧ (m.session.scheduler.Unused hd.slot ∨
      p.Recalls hd.slot ∧ (m.session.scheduler.Rests hd.slot ∨ ∃ q ∈ later, q.Arms hd.slot)) := by
  have cancelled : m.Crashed ∨ m.session.isCancelled hd.token = true := by
    obtain ⟨q, hq, hrest⟩ := returned
    rcases run.passes ha held ⟨q, hq, by simp [hrest]⟩ with hc | ⟨c, hc, hcancel⟩
    · exact .inl hc
    · exact run.cancels held hc hcancel
  rcases cancelled with hc | cancelled
  · exact .inl hc
  obtain ⟨hd', held', later'⟩ := FateAux.handler_later run held
  have hinert := inert run held' (disposed_later later' disposed) (by rwa [later'.token])
  rw [later'.slot] at hinert
  have alone' : ∀ x ∈ .cancel hd.token :: rest, x.settles hd.slot = false := List.forall_mem_cons.2 ⟨rfl, alone⟩
  have unasked : ∀ q ∈ later, ∀ i, ¬ q.Requests h i := by
    intro q hq
    obtain ⟨between, run', -⟩ := run.of_later (List.mem_cons_of_mem _ hq)
    exact run'.not_requests ha held
  exact (run.stopped ha held alone' unasked).imp_right fun hslot => ⟨hinert, hslot⟩

/-- A disposal is over as soon as code of the host can see the session. -/
theorem returns (run : Course (later ++ p :: earlier) m) (ha : p.agenda = .dispose h :: rest)
    (held : p.session.handlers[h]? = some hd) (live : hd.isDisposed = false) (alive : ¬ m.Crashed) (seen : m.Visible) :
    ∃ q ∈ m :: later, q.agenda = rest := by
  obtain ⟨hd', -, hn⟩ := run_dispose rest held live
  rcases next_course run ha with ⟨hm, -⟩ | ⟨later, rfl, run'⟩
  · rw [← hm] at hn
    exact absurd rfl ((AccountingAux.head_of_visible hn.agenda seen).1 _)
  have quarters := (run'.before.quarters hn.held).resolve_left (not_crashed_of_agenda hn.agenda)
  rcases (run'.stops hn.agenda fun w hw => HandlerSlotAux.onDrop_of_parses (quarters.lodgers w (.inl hw))).resolve_left alive with
    ⟨pre, hpre, hp⟩ | ⟨c, hc, hcancel⟩
  · cases pre with
    | nil => simp [Machine.Visible, hpre] at seen
    | cons x pre =>
      have hloud := (AccountingAux.head_of_visible hpre seen).2.1
      rw [hp x (.head _)] at hloud
      cases hloud
  · obtain ⟨after, before, rfl⟩ := List.append_of_mem hc
    rw [List.append_assoc, List.cons_append] at run'
    rcases FateAux.next_split run' hcancel with ⟨hm, rfl⟩ | ⟨after, rfl⟩
    · exact ⟨m, .head _, by rw [hm]; rfl⟩
    · exact ⟨{ c with agenda := rest }.run (.cancel hd'.token), by simp, rfl⟩

/-- Disposing of a handler is final, whoever does it and wherever. Once it is over, the handler is inert, and its slot is free,
empty and off the list of pending ones. Only where an error site of the session made calls, by which work was let run, the slot
may recall a worker whose step was under way at the disposal; it is free and off the list then as well, until it is started. -/
theorem disposed (run : Course (later ++ p :: earlier) m) (ha : p.agenda = .dispose h :: rest)
    (held : p.session.handlers[h]? = some hd) (live : hd.isDisposed = false) (returned : ∃ q ∈ m :: later, q.agenda = rest) :
    m.Crashed ∨ m.Inert h hd.slot ∧ (m.session.scheduler.Unused hd.slot ∨
      (p.Recalls hd.slot ∧ (∃ q ∈ earlier, Reenters q.agenda) ∧ ∃ q ∈ earlier, q.session.Speaks) ∧
        (m.session.scheduler.Rests hd.slot ∨ ∃ q ∈ later, q.Arms hd.slot)) := by
  have before := run.before
  have quarters := (before.quarters held).resolve_left (not_crashed_of_agenda ha)
  rw [ha] at quarters
  have alone := HandlerSlotAux.unsettling_of_head quarters rfl nofun
  obtain ⟨hd', later', hn⟩ := run_dispose rest held live
  rcases next_course run ha with ⟨rfl, rfl⟩ | ⟨later, rfl, run'⟩
  · obtain ⟨q, hq, hrest⟩ := returned
    rw [List.mem_singleton.1 hq] at hrest
    exact absurd hrest hn.agenda_ne
  have returned' : ∃ q ∈ m :: later, q.agenda = rest := by
    obtain ⟨q, hq, hrest⟩ := returned
    exact ⟨q, VacancyAux.mem_of_agenda hq hrest hn.agenda_ne, hrest⟩
  rw [← later'.slot] at alone ⊢
  refine Or.imp_right (And.imp_right fun hslot => ?_) (run'.left hn.agenda hn.held hn.ended alone returned')
  rcases hslot with unused | ⟨hr, hslot⟩
  · exact .inl unused
  · have recalls := hn.recalls ha hr
    refine .inr ⟨⟨recalls, before.reenters recalls, before.speaks held ha rfl rfl nofun (later'.slot ▸ recalls)⟩, ?_⟩
    exact hslot.imp_right fun ⟨q, hq, harms⟩ => ⟨q, List.mem_append_left _ hq, harms⟩

end Course

end Machine

namespace DisposalAux

/-- A document whose first watcher disposes of the second, a handler, when the document is loaded while a parse is under way.
Later the host asks the handler for a parse, disables it and lets all work run. -/
def surprised : List Machine × Machine :=
  Machine.talk 64
    [.document "d" "[" none, .onDocument "d" (.observe "o" ⟨some .loaded, 1, [.onHandler "h" .dispose]⟩),
     .handler "h" ⟨true, some "d", [.built (.ok brackets)], .standard⟩, .onHandler "h" .reparse, .drive .tick 1,
     .onDocument "d" (.edit (.load "[[")), .onHandler "h" .reparse, .onHandler "h" (.enable false), .drive .untilIdle 9]
    ([], ⟨.new .standard, [], none⟩)

/-- A document whose error site starts the parse, lets work run and disposes of the handler. An observer that hears of an edit before
the handler does lets the parse of the old text go on, and that one has a line to write on that is gone. Later the host starts the
parse. -/
def reentered : List Machine × Machine :=
  Machine.talk 64
    [.document "d" "[\n]" (some [.onHandler "h" (.execute WorkCommand.play.id), .drive .tick 1, .onHandler "h" .dispose]),
     .onDocument "d" (.observe "o" ⟨some .multiLine, 1, [.drive .tick 1]⟩),
     .handler "h" ⟨true, some "d", [.built (.ok brackets)], .standard⟩, .onHandler "h" .reparse, .drive .tick 1,
     .onDocument "d" (.edit (.setText "")), .onHandler "h" (.execute WorkCommand.play.id)]
    ([], ⟨.new .standard, [], none⟩)

/-- Whether the first handler, which is not disposed of yet, is to be disposed of. -/
def disposes (m : Machine) : Bool :=
  match m.agenda, m.session.handlers[0]? with
  | .dispose 0 :: _, some hd => decide (hd.slot = 0) && !hd.isDisposed
  | _, _ => false

theorem of_disposes (hm : disposes m = true) :
    ∃ hd rest, m.agenda = .dispose 0 :: rest ∧ m.session.handlers[0]? = some hd ∧ hd.slot = 0 ∧ hd.isDisposed = false := by
  unfold disposes at hm
  split at hm
  · next ha hh =>
    simp only [Bool.and_eq_true, decide_eq_true_eq, Bool.not_eq_true'] at hm
    exact ⟨_, _, ha, hh, hm.1, hm.2⟩
  · cases hm

/-- Where the first handler is to be disposed of on a course that comes to rest, the disposal is over in the end. -/
theorem exists_disposal (run : Machine.Course past m) (idle : m.Idle) {q : Machine → Bool}
    (h : past.any (fun x => disposes x && q x) = true) :
    ∃ (later earlier : List Machine) (p : Machine) (hd : Handler) (rest : List Task), past = later ++ p :: earlier ∧ q p = true ∧
      p.agenda = .dispose 0 :: rest ∧ p.session.handlers[0]? = some hd ∧ hd.slot = 0 ∧ hd.isDisposed = false ∧
      ∃ x ∈ m :: later, x.agenda = rest := by
  obtain ⟨p, hp, hpq⟩ := List.any_eq_true.1 h
  rw [Bool.and_eq_true] at hpq
  obtain ⟨later, earlier, rfl⟩ := List.append_of_mem hp
  obtain ⟨hd, rest, ha, held, hslot, live⟩ := of_disposes hpq.1
  have returned := run.returns ha held live idle.not_crashed idle.visible
  exact ⟨later, earlier, p, hd, rest, rfl, hpq.2, ha, held, hslot, live, returned⟩

end DisposalAux

namespace Machine

namespace Course

/-- A handler that is disposed of while an event is on its way to it, and a parse of its own is under way, is inert in the end.
-/
theorem disposed_surprised : ∃ (later earlier : List Machine) (p m : Machine) (rest : List Task),
    Course (later ++ p :: earlier) m ∧ m.Idle ∧ p.agenda = .dispose 0 :: rest ∧ (p.session.scheduler.slot 0).phase = .queued 0 ∧
    (∃ q ∈ m :: later, q.agenda = rest) ∧ m.Inert 0 0 ∧ m.session.scheduler.Unused 0 := by
  have run : Course surprised.1 surprised.2 := (Course.new .standard).talk 64 _
  have idle : surprised.2.Idle := by decide +kernel
  have quiet : ∀ x ∈ surprised.1, ¬ Reenters x.agenda := by decide +kernel
  obtain ⟨later, earlier, p, hd, rest, hpast, queued, ha, held, hslot, live, returned⟩ := exists_disposal run idle
    (q := fun x => decide ((x.session.scheduler.slot 0).phase = .queued 0)) (by decide +kernel)
  rw [hpast] at run quiet
  obtain ⟨hinert, hunused⟩ := (run.disposed ha held live returned).resolve_left idle.not_crashed
  rw [hslot] at hinert hunused
  refine ⟨later, earlier, p, _, rest, run, idle, ha, of_decide_eq_true queued, returned, hinert, hunused.resolve_right ?_⟩
  rintro ⟨⟨-, ⟨q, hq, hre⟩, -⟩, -⟩
  exact quiet q (by simp [hq]) hre

/-- A handler is disposed of by an error site that has let work run in the middle of a step of the handler's own parse. The parse
goes back to the slot, and a command that comes after the disposal has the slot wait for a step again. -/
theorem exists_rearmed : ∃ (later earlier : List Machine) (p m : Machine) (rest : List Task) (hd : Handler),
    Course (later ++ p :: earlier) m ∧ m.Idle ∧ p.agenda = .dispose 0 :: rest ∧ p.session.handlers[0]? = some hd ∧
      hd.isDisposed = false ∧ (∃ q ∈ m :: later, q.agenda = rest) ∧
      (m.session.scheduler.slot hd.slot).phase = .queued 0 ∧ hd.slot ∈ m.session.scheduler.pending := by
  have run : Course reentered.1 reentered.2 := (Course.new .standard).talk 64 _
  have idle : reentered.2.Idle := by decide +kernel
  have queued : (reentered.2.session.scheduler.slot 0).phase = .queued 0 := by decide +kernel
  have pending : 0 ∈ reentered.2.session.scheduler.pending := by decide +kernel
  obtain ⟨later, earlier, p, hd, rest, hpast, -, ha, held, hslot, live, returned⟩ := exists_disposal run idle
    (q := fun _ => true) (by decide +kernel)
  rw [hpast] at run
  exact ⟨later, earlier, p, _, rest, hd, run, idle, ha, held, live, returned, by rwa [hslot], by rwa [hslot]⟩

end Course

end Machine

end LiveHighlight
