import LiveHighlight.Proofs.Highlight.Fidelity
import LiveHighlight.Proofs.Session.RoundProgress
import LiveHighlight.Proofs.Session.ParseUnderWay

/-!
# Handlers parse the text as it is

Whenever the worker of a handler that is not disposed of begins a step, its snapshot is the text that the document has then
(`Course.current`), whoever else watches, edits and annotates the document, and however deep in callbacks. The snapshot is taken
when a parse is asked for. Between that moment and a change of the text no code of the host is heard; and from a change on the
handler is about to be told of it, which stops the slot before the round goes on (`Fresh.engaged`). So the parse meets the lines
that it was begun for, and since the grammar was built it succeeds.
-/

namespace LiveHighlight

/-- Whether a handler's parses are parses of a text: the one that is asked for, the one that is about to be queued, and the one
under way, unless its slot is about to be stopped or the handler is about to be told that the text is another one now. -/
structure Fresh (h : Nat) (hd : Handler) (texts : List String) (o : Office) (agenda : List Task) : Prop where
  asked : .requestParse h ∈ agenda → hd.enabled = true ∧ ∃ rest, agenda = .requestParse h :: rest ∧ .requestParse h ∉ rest
  coming : ∀ w delay, .install hd.slot w delay ∈ agenda →
    hd.enabled = true ∧ ∃ i job, w = ⟨i, .parsing hd.document job hd.token⟩ ∧ job.Reads hd.grammar hd.options texts
  engaged : ∀ w, o.Engages agenda hd.slot w → agenda.head? = some (.stop hd.slot) ∨
    hd.enabled = true ∧ ∃ i job, w = ⟨i, .parsing hd.document job hd.token⟩ ∧
      (Told h hd.document agenda ∨ job.Reads hd.grammar hd.options texts)

namespace FreshnessAux

variable {s : Session} {o o' : Office} {t : Task} {k : Desk} {rest new : List Task} {h : Nat} {hd hd' : Handler}

/-! ### What a page means to a handler -/

/-- A handler stays as it is, or a call switches it on and asks for a parse, or switches it off and stops its slot. -/
theorem switched_page (page : Page s t k new) (held : s.handlers[h]? = some hd) (held' : k.handlers[h]? = some hd')
    (live : hd'.isDisposed = false) :
    hd' = hd ∨ (∃ c asker, t = .call c asker) ∧
      (hd'.enabled = true ∧ new.head? = some (.requestParse h) ∨ new.head? = some (.stop hd.slot)) := by
  have same (hk : k.handlers = s.handlers) : hd' = hd := by
    rw [hk, held] at held'
    exact (Option.some.inj held').symm
  cases page with
  | attach =>
    rw [List.getElem?_append_left (List.getElem?_eq_some_iff.1 held).1, held] at held'
    exact .inl (Option.some.inj held').symm
  | @enable name id other on asker _ hother =>
    by_cases hid : id = h
    · subst hid
      rw [List.getElem?_modify_eq, held] at held'
      obtain rfl := Option.some.inj held'
      obtain rfl := Option.some.inj (hother.symm.trans held)
      refine .inr ⟨⟨_, _, rfl⟩, ?_⟩
      cases on with
      | true => exact .inl ⟨rfl, rfl⟩
      | false => exact .inr rfl
    · rw [StrokeAux.handler_modify_ne hid, held] at held'
      exact .inl (Option.some.inj held').symm
  | @dispose id number other =>
    by_cases hid : id = h
    · subst hid
      rw [AttendanceAux.isDisposed_of_modify held'] at live
      cases live
    · rw [StrokeAux.handler_modify_ne hid, held] at held'
      exact .inl (Option.some.inj held').symm
  | _ => exact .inl (same rfl)

/-- What is no call changes neither a handler nor the text of its document. -/
theorem still_page (page : Page s t k new) (ht : ∀ c asker, t ≠ .call c asker) (held : s.handlers[h]? = some hd)
    (held' : k.handlers[h]? = some hd') (live : hd'.isDisposed = false) (ranged : hd.document < s.documents.length) :
    hd' = hd ∧ (k.document hd.document).buffer.texts = (s.document hd.document).buffer.texts := by
  refine ⟨?_, ?_⟩
  · rcases switched_page page held held' live with he | ⟨⟨c, asker, rfl⟩, -⟩
    · exact he
    · exact absurd rfl (ht c asker)
  · rcases page.texts ranged with he | ⟨⟨c, asker, rfl⟩, -⟩
    · exact he
    · exact absurd rfl (ht c asker)

/-- News on its way to a handler that is enabled goes on its way, until the handler asks for a parse. -/
theorem told_page (page : Page s t k new) (held : s.handlers[h]? = some hd) (attends : s.desk.Attends h hd (t :: rest))
    (enabled : hd.enabled = true) (ht : t ≠ .requestParse h) (tells : t.tells h hd.document = true) :
    Told h hd.document new := by
  cases page with
  | quiet hstill =>
    rw [(StrokeAux.still_spec hstill h hd.document).2.2.2] at tells
    cases tells
  | raise ha =>
    simp only [Task.tells, Bool.and_eq_true, decide_eq_true_eq] at tells
    obtain ⟨rfl, he⟩ := tells
    refine ⟨_, .head _, ?_⟩
    simp [Task.tells, he, LiveHandlerAux.mem_watchers attends ha]
  | delivered => simp [Task.tells] at tells
  | deliver =>
    simp only [Task.tells, Bool.and_eq_true, decide_eq_true_eq, List.mem_cons] at tells
    obtain ⟨hw | hw, he⟩ := tells
    · exact ⟨_, .head _, by simp [Task.tells, he, ← hw]⟩
    · exact ⟨_, .tail _ (.head _), by simp [Task.tells, he, hw]⟩
  | notifyObserver => simp [Task.tells] at tells
  | notifyIdle hidle =>
    simp only [Task.tells, Bool.and_eq_true, decide_eq_true_eq, Watcher.handler.injEq] at tells
    obtain ⟨rfl, he⟩ := tells
    exact absurd ⟨enabled, he⟩ (hidle hd held)
  | notifyHandler =>
    simp only [Task.tells, Bool.and_eq_true, decide_eq_true_eq, Watcher.handler.injEq] at tells
    exact ⟨_, .head _, by simp [Task.tells, tells.1]⟩
  | requestNothing | request =>
    simp only [Task.tells, decide_eq_true_eq] at tells
    exact absurd (tells ▸ rfl) ht
  | _ => cases tells

/-- A handler that asks for a parse is enabled, and the parse is begun next. -/
theorem asked_page (page : Page s t k new) (held' : k.handlers[h]? = some hd') (hx : .requestParse h ∈ new) :
    hd'.enabled = true ∧ ∃ others, new = .requestParse h :: others ∧ .requestParse h ∉ others := by
  cases page with
  | quiet _ hn | notifyObserver hn => cases hn _ hx
  | pass hn => rcases hn with rfl | ⟨d, rfl⟩ | ⟨r', rfl⟩ <;> simp at hx
  | work | rehearse =>
    rcases List.mem_append.1 hx with hx | hx
    · rcases JobStep.mem_tells hx with ⟨message, -, he⟩ | he <;> cases he
    · simp at hx
  | @enable name id other on asker _ hother =>
    cases on with
    | false => simp at hx
    | true =>
      obtain rfl : h = id := by simpa using hx
      rw [List.getElem?_modify_eq, hother] at held'
      obtain rfl := Option.some.inj held'
      exact ⟨rfl, _, rfl, by simp⟩
  | reparse _ hother he | notifyHandler hother he =>
    obtain rfl := by simpa using hx
    obtain rfl := Option.some.inj (hother.symm.trans held')
    exact ⟨he, _, rfl, by simp⟩
  | _ => simp at hx

/-- A handler that is not cancelled and asks for a parse has its slot stopped and a parse of the text queued there. -/
theorem request_page (page : Page s (.requestParse h) k new) (held : s.handlers[h]? = some hd)
    (safe : s.isCancelled hd.token = false) :
    ∃ i, new = [.stop hd.slot, .install hd.slot
      ⟨i, .parsing hd.document (.start hd.grammar (s.document hd.document).buffer hd.options) hd.token⟩ 0] := by
  cases page with
  | quiet hstill => cases hstill
  | requestNothing hidle =>
    rw [hidle hd held] at safe
    cases safe
  | request hother =>
    obtain rfl := Option.some.inj (hother.symm.trans held)
    exact ⟨_, rfl⟩

/-- The worker that takes a step in a round is the one that was in the slot, a step later. -/
theorem stepped_page {r r' : Round} {slot g g' i d : Nat} {w : Worker} {outcome : Outcome} {job : ParseJob}
    {token : CancelToken} (page : Page s (.round r) k new)
    (hc : (s.scheduler.claim slot r.now).2 = .step ⟨i, .parsing d job token⟩ g) (hx : .conclude r' slot g' w outcome ∈ new) :
    w = ⟨i, .parsing d (job.step (s.isCancelled token) (s.document d).buffer).job token⟩ := by
  cases page with
  | quiet hstill => cases hstill
  | pass hn => rcases hn with rfl | ⟨d, rfl⟩ | ⟨r', rfl⟩ <;> simp at hx
  | play hc' =>
    simp only [List.mem_cons, reduceCtorEq, false_or, List.not_mem_nil, or_false, Task.conclude.injEq] at hx
    obtain ⟨-, rfl, -⟩ := hx
    cases hc.symm.trans hc'
  | work hc' =>
    rcases List.mem_append.1 hx with hx | hx
    · rcases JobStep.mem_tells hx with ⟨message, -, he⟩ | he <;> cases he
    · simp only [List.mem_singleton, Task.conclude.injEq] at hx
      obtain ⟨-, rfl, -, rfl, -⟩ := hx
      cases hc.symm.trans hc'
      rfl

/-! ### What a task means to the parses of a handler -/

/-- Nothing comes between a stop of the slot and the worker that is to be put in. -/
theorem not_call_of_coming {w : Worker} {delay slot : Nat} (hc : Calmly slot o (t :: rest))
    (hx : .install slot w delay ∈ rest) (c : Call) (asker : Asker) : t ≠ .call c asker := by
  rintro rfl
  have steady := hc.kept.stage.steady_of_head nofun rfl rfl _ (.tail _ hx)
  simp [Task.settles] at steady

theorem asked_step (page : Page s t k new) (held' : k.handlers[h]? = some hd')
    (hf : Fresh h hd (s.document hd.document).buffer.texts s.office (t :: rest)) (hx : .requestParse h ∈ new ++ rest) :
    hd'.enabled = true ∧ ∃ others, new ++ rest = .requestParse h :: others ∧ .requestParse h ∉ others := by
  -- whoever asks for a parse is done asking when anything else is done
  have done : .requestParse h ∉ rest := by
    intro hx
    obtain ⟨-, others, ha, hnot⟩ := hf.asked (.tail _ hx)
    exact hnot ((List.cons.inj ha).2 ▸ hx)
  rcases List.mem_append.1 hx with hx | hx
  · obtain ⟨enabled, others, rfl, hnot⟩ := asked_page page held' hx
    exact ⟨enabled, others ++ rest, rfl, by simp [hnot, done]⟩
  · exact absurd hx done

theorem coming_step (held : s.handlers[h]? = some hd) (hs : Stationed h hd s (t :: rest)) (safe : s.isCancelled hd.token = false)
    (turn : Turn s.office t o' new) (page : Page s t k new) (held' : k.handlers[h]? = some hd') (live : hd'.isDisposed = false)
    (hf : Fresh h hd (s.document hd.document).buffer.texts s.office (t :: rest)) {w : Worker} {delay : Nat}
    (hx : .install hd.slot w delay ∈ new ++ rest) :
    hd'.enabled = true ∧ ∃ i job, w = ⟨i, .parsing hd.document job hd.token⟩ ∧
      job.Reads hd.grammar hd.options (k.document hd.document).buffer.texts := by
  have still (ht : ∀ c asker, t ≠ .call c asker) := still_page page ht held held' live hs.attends.ranged
  rcases List.mem_append.1 hx with hx | hx
  · rcases LiveHandlerAux.install_turn turn hx with ⟨name, hp⟩ | ⟨i, rfl, hi⟩
    · exact absurd hp (hs.owned.places name)
    · obtain rfl := hs.owned.desks i hi
      obtain ⟨rfl, htexts⟩ := still nofun
      obtain ⟨n, rfl⟩ := request_page page held safe
      simp only [List.mem_cons, reduceCtorEq, false_or, Task.install.injEq, List.not_mem_nil, or_false, true_and] at hx
      rw [htexts]
      exact ⟨(hf.asked (.head _)).1, n, _, hx.1, ParseJob.reads_start _ _ _⟩
  · obtain ⟨rfl, htexts⟩ := still (not_call_of_coming hs.calmly hx)
    rw [htexts]
    exact hf.coming w delay (.tail _ hx)

/-- A parse under way stays one of the text, or its handler is about to be told, or its slot is about to be stopped. -/
theorem engaged_kept (held : s.handlers[h]? = some hd) (hs : Stationed h hd s (t :: rest)) (safe : s.isCancelled hd.token = false)
    (page : Page s t k new) (held' : k.handlers[h]? = some hd') (live : hd'.isDisposed = false) (enabled : hd.enabled = true)
    {job : ParseJob} (news : Told h hd.document (t :: rest) ∨
      job.Reads hd.grammar hd.options (s.document hd.document).buffer.texts) :
    (new ++ rest).head? = some (.stop hd.slot) ∨ hd'.enabled = true ∧
      (Told h hd.document (new ++ rest) ∨ job.Reads hd.grammar hd.options (k.document hd.document).buffer.texts) := by
  have first {x : Task} (hx : new.head? = some x) : (new ++ rest).head? = some x := by simp [hx]
  rcases switched_page page held held' live with rfl | ⟨-, ⟨enabled', hhead⟩ | hhead⟩
  · by_cases ht : t = .requestParse h
    · subst ht
      obtain ⟨i, rfl⟩ := request_page page held safe
      exact .inl rfl
    · refine .inr ⟨enabled, ?_⟩
      rcases news with htold | hreads
      · exact .inl (UnderWayAux.told_append htold (told_page page held hs.attends enabled ht))
      · rcases page.texts hs.attends.ranged with he | ⟨-, e, event, hedit, hx⟩
        · exact .inr (he ▸ hreads)
        · have hparse := Buffer.requestsParse_of_edit hedit
          exact .inl (UnderWayAux.told_of_new ⟨_, hx, by simp [Task.tells, hparse]⟩)
  · refine .inr ⟨enabled', .inl ⟨_, List.mem_of_head? (first hhead), ?_⟩⟩
    simp [Task.tells]
  · exact .inl (first hhead)

/-- A worker that is in the slot of a handler where a round goes on parses the text. -/
theorem parses_of_round {texts : List String} {r : Round} {w : Worker} (hf : Fresh h hd texts o [.round r])
    (hw : (o.scheduler.slot hd.slot).worker = some w) :
    hd.enabled = true ∧ ∃ i job, w = ⟨i, .parsing hd.document job hd.token⟩ ∧ job.Reads hd.grammar hd.options texts := by
  rcases hf.engaged w (.inl hw) with hhead | ⟨enabled, i, job, rfl, htold | hreads⟩
  · cases hhead
  · obtain ⟨x, hx, htells⟩ := htold
    obtain rfl := List.mem_singleton.1 hx
    cases htells
  · exact ⟨enabled, i, job, rfl, hreads⟩

/-- A worker that takes a step parses the text before and after it. -/
theorem engaged_stepped (hg : hd.grammar.Closed) (lined : (s.document hd.document).buffer.texts ≠ [])
    (safe : s.isCancelled hd.token = false) {r r' : Round} {g : Nat} {w : Worker} {outcome : Outcome}
    (turn : Turn s.office (.round r) o' new) (page : Page s (.round r) k new)
    (hf : Fresh h hd (s.document hd.document).buffer.texts s.office [.round r]) (hx : .conclude r' hd.slot g w outcome ∈ new) :
    hd.enabled = true ∧ ∃ i job, w = ⟨i, .parsing hd.document job hd.token⟩ ∧
      job.Reads hd.grammar hd.options (s.document hd.document).buffer.texts := by
  cases turn.left hx with
  | light hx => cases hx
  | stepped hc hl =>
    obtain ⟨enabled, i, job, rfl, hreads⟩ := parses_of_round hf (Scheduler.claim_step hc).2.1
    have hw := stepped_page page hc hx
    rw [safe] at hw
    exact ⟨enabled, i, _, hw, hreads.step hg lined rfl⟩

end FreshnessAux

open FreshnessAux

/-- Whatever is done, the parses of a handler stay parses of the text. -/
theorem Fresh.step {s : Session} {o' : Office} {t : Task} {k : Desk} {rest new : List Task} {h : Nat} {hd hd' : Handler}
    (hg : hd.grammar.Closed) (hr : Regular s (t :: rest)) (hs : Stationed h hd s (t :: rest)) (held : s.handlers[h]? = some hd)
    (turn : Turn s.office t o' new) (page : Page s t k new) (held' : k.handlers[h]? = some hd') (later : hd.Later hd')
    (live : hd'.isDisposed = false) (hf : Fresh h hd (s.document hd.document).buffer.texts s.office (t :: rest)) :
    Fresh h hd' (k.document hd'.document).buffer.texts o' (new ++ rest) := by
  have safe := LiveHandlerAux.not_isCancelled hr.numbered held hs.attends
  have lined : (s.document hd.document).buffer.texts ≠ [] := (hr.lined _ hs.attends.ranged).texts_ne_nil
  have still (ht : ∀ c asker, t ≠ .call c asker) := still_page page ht held held' live hs.attends.ranged
  constructor
  case asked => exact asked_step page held' hf
  all_goals rw [later.document, later.grammar, later.options, later.slot, later.token]
  case coming => exact fun w delay hx => coming_step held hs safe turn page held' live hf hx
  case engaged =>
    intro w hw
    rcases turn.engages hs.calmly hw with ⟨before, hstop⟩ | ⟨delay, rfl⟩ | ⟨r, g, outcome, hx⟩
    · rcases hf.engaged w before with hhead | ⟨enabled, i, job, rfl, news⟩
      · exact absurd (Option.some.inj hhead) hstop
      · rcases engaged_kept held hs safe page held' live enabled news with hhead | ⟨enabled', news'⟩
        · exact .inl hhead
        · exact .inr ⟨enabled', i, job, rfl, news'⟩
    · obtain ⟨rfl, htexts⟩ := still nofun
      obtain ⟨enabled, i, job, rfl, hreads⟩ := hf.coming w delay (.head _)
      rw [htexts]
      exact .inr ⟨enabled, i, job, rfl, .inr hreads⟩
    · obtain ⟨r₀, rfl⟩ := StrokeAux.conclude_turn turn hx
      obtain rfl := hr.orderly.alone rfl
      obtain ⟨rfl, htexts⟩ := still nofun
      obtain ⟨enabled, i, job, rfl, hreads⟩ := engaged_stepped hg lined safe turn page hf hx
      rw [htexts]
      exact .inr ⟨enabled, i, job, rfl, .inr hreads⟩

namespace FreshnessAux

variable {s s' : Session} {t : Task} {rest new : List Task} {h : Nat} {hd hd' : Handler} {texts : List String}

/-- A handler that is attached has asked for no parse yet. -/
theorem fresh_new (hr : Regular s (t :: rest)) (turn : Turn s.office t s'.office new) (page : Page s t s'.desk new)
    (absent : s.handlers[h]? = none) (held : s'.handlers[h]? = some hd) : Fresh h hd texts s'.office (new ++ rest) := by
  obtain ⟨hd', hs, -⟩ | ⟨rfl, hslot, -⟩ := AttendanceAux.handler_page page held
  · rw [absent] at hs
    cases hs
  refine ⟨?_, ?_, ?_⟩
  · intro hx
    have hlt : s.handlers.length < s.handlers.length := by
      rcases List.mem_append.1 hx with hx | hx
      · exact AttendanceAux.requests_page page hx
      · exact hr.numbered.requests _ (.tail _ hx)
    exact absurd hlt (Nat.lt_irrefl _)
  · exact fun w delay hx => absurd (hslot ▸ rfl) (LiveHandlerAux.slot_fresh hr.known turn hx)
  · exact fun w hw => absurd (hslot ▸ hw) (LiveHandlerAux.not_engages_new hr.known turn)

/-- What the host asks leaves the parses of a handler alone. -/
theorem fresh_call {o : Office} (hf : Fresh h hd texts o []) (c : Call) : Fresh h hd texts o [.call c .host] where
  asked hx := by simp at hx
  coming w delay hx := by simp at hx
  engaged w hw := by
    have before : o.Engages [] hd.slot w := by
      rcases hw with hw | ⟨r, outcome, hx⟩
      · exact .inl hw
      · simp at hx
    rcases hf.engaged w before with hhead | ⟨enabled, i, job, he, htold | hreads⟩
    · cases hhead
    · obtain ⟨x, hx, -⟩ := htold
      cases hx
    · exact .inr ⟨enabled, i, job, he, .inr hreads⟩

/-- Only parse workers are put into the slot of a handler, and they end in silence. -/
theorem calm_of_fresh {o : Office} (quiet : ¬ Reenters (t :: rest)) (hf : Fresh h hd texts o (t :: rest)) :
    Calm hd.slot (t :: rest) := by
  refine calm_of_install quiet ?_
  intro w delay rest' he
  obtain ⟨rfl, rfl⟩ := List.cons.inj he
  obtain ⟨-, i, job, rfl, -⟩ := hf.coming w delay (.head _)
  rfl

/-- The machine when a parse worker has been taken out of its slot for a step. -/
theorem step_begun {m : Machine} {r : Round} {slot g i d : Nat} {due : List Nat} {job : ParseJob} {token : CancelToken}
    (ha : m.agenda = .round r :: rest) (hr : r.due = slot :: due)
    (hc : (m.session.scheduler.claim slot r.now).2 = .step ⟨i, .parsing d job token⟩ g) :
    m.step = ⟨(({ m.session with scheduler := (m.session.scheduler.claim slot r.now).1 }).note (.parsed i job.phase)).setBuffer d
        (job.step (m.session.isCancelled token) (m.session.document d).buffer).buffer,
      (job.step (m.session.isCancelled token) (m.session.document d).buffer).tells d ++
        [.conclude { r with due } slot g
          ⟨i, .parsing d (job.step (m.session.isCancelled token) (m.session.document d).buffer).job token⟩
          (.ok (job.step (m.session.isCancelled token) (m.session.document d).buffer).next)] ++ rest, m.reply⟩ := by
  have hclaim : m.session.scheduler.claim slot r.now =
      ((m.session.scheduler.claim slot r.now).1, .step ⟨i, .parsing d job token⟩ g) := Prod.ext rfl hc
  unfold Machine.step
  rw [ha]
  simp only [Machine.run, Machine.round, hr]
  rw [hclaim]
  rfl

theorem agenda_begun {m : Machine} {r : Round} {slot g i d : Nat} {due : List Nat} {job : ParseJob} {token : CancelToken}
    (ha : m.agenda = .round r :: rest) (hr : r.due = slot :: due)
    (hc : (m.session.scheduler.claim slot r.now).2 = .step ⟨i, .parsing d job token⟩ g) :
    m.step.agenda = (job.step (m.session.isCancelled token) (m.session.document d).buffer).tells d ++
      [.conclude { r with due } slot g
        ⟨i, .parsing d (job.step (m.session.isCancelled token) (m.session.document d).buffer).job token⟩
        (.ok (job.step (m.session.isCancelled token) (m.session.document d).buffer).next)] ++ rest := by
  rw [step_begun ha hr hc]

end FreshnessAux

namespace Machine

namespace Course

variable {past : List Machine} {m : Machine}

/-- The handlers that are not disposed of have their stations, and their parses are parses of the text. -/
theorem fresh (run : Course past m) (quiet : ∀ p ∈ past, ¬ Reenters p.agenda) :
    m.Crashed ∨ Regular m.session m.agenda ∧ ∀ (h : Nat) (hd : Handler), m.session.handlers[h]? = some hd →
      hd.isDisposed = false → hd.grammar.Closed →
        Stationed h hd m.session m.agenda ∧ Fresh h hd (m.session.document hd.document).buffer.texts m.session.office m.agenda := by
  induction run with
  | new options => exact .inr ⟨LiveHandlerAux.regular_new options, fun h hd held => by simp [Session.new] at held⟩
  | @ask past m c run idle ih =>
    obtain ⟨hr, hs⟩ := (ih fun p hp => quiet p (.tail _ hp)).resolve_left idle.not_crashed
    rw [idle.1] at hr hs
    refine .inr ⟨LiveHandlerAux.regular_call hr c, fun h hd held live hg => ?_⟩
    obtain ⟨hs, hf⟩ := hs h hd held live hg
    exact ⟨LiveHandlerAux.stationed_call hs c, fresh_call hf c⟩
  | @step past m t rest run ha ih =>
    have hq : ¬ Reenters (t :: rest) := ha ▸ quiet m (.head _)
    obtain ⟨hr, hs⟩ := (ih fun p hp => quiet p (.tail _ hp)).resolve_left (not_crashed_of_agenda ha)
    rw [ha] at hr hs
    rcases run.page ha with hc | ⟨new, hn, turn, page⟩
    · exact .inl hc
    rw [hn]
    refine .inr ⟨LiveHandlerAux.regular_step hr hq turn page, ?_⟩
    intro h hd' held' live hg
    cases hh : m.session.handlers[h]? with
    | none => exact ⟨LiveHandlerAux.stationed_new hr turn page hh held', fresh_new hr turn page hh held'⟩
    | some hd =>
      obtain ⟨hd'', hh', later⟩ := AttendanceAux.later_page page hh
      obtain rfl := Option.some.inj (held'.symm.trans hh')
      rw [later.grammar] at hg
      obtain ⟨hs, hf⟩ := hs h hd hh (later.live live) hg
      exact ⟨LiveHandlerAux.stationed_step hr hs hh (calm_of_fresh hq hf) turn page held' later live,
        hf.step hg hr hs hh turn page held' later live⟩

/-- A parse worker that begins a step at the slot of a handler that is not disposed of parses the document's text as it is, and
the step succeeds: the mark of every event has a line, the parse does not end in a fault, and the error site is told nothing. -/
theorem current (run : Course past m) (quiet : ∀ p ∈ past, ¬ Reenters p.agenda) {h : Nat} {hd : Handler}
    (held : m.session.handlers[h]? = some hd) (live : hd.isDisposed = false) {spec : GrammarSpec} {registry : TerminalRegistry}
    (built : spec.build registry = .ok hd.grammar) {w : Worker} (begins : m.Begins hd.slot w) :
    ∃ i job, w = ⟨i, .parsing hd.document job hd.token⟩ ∧ m.session.isCancelled hd.token = false ∧
      job.Succeeds (m.session.document hd.document).buffer ∧
      ∀ document source message, .complain document source message ∉ m.step.agenda := by
  obtain ⟨r, due, rest, g, ha, hr, hc⟩ := begins_iff.1 begins
  have hg := closed_of_build built
  obtain ⟨regular, handlers⟩ := (run.fresh quiet).resolve_left (not_crashed_of_agenda ha)
  obtain ⟨station, fresh⟩ := handlers h hd held live hg
  rw [ha] at regular station fresh
  obtain rfl := regular.orderly.alone rfl
  obtain ⟨-, i, job, rfl, hreads⟩ := parses_of_round fresh (Scheduler.claim_step hc).2.1
  have safe := LiveHandlerAux.not_isCancelled regular.numbered held station.attends
  have succeeds := hreads.succeeds hg (regular.lined _ station.attends.ranged).texts_ne_nil rfl
  refine ⟨i, job, rfl, safe, succeeds, ?_⟩
  intro document source message hx
  rw [agenda_begun ha hr hc, safe, List.append_nil] at hx
  rcases List.mem_append.1 hx with hx | hx
  · rcases JobStep.mem_tells hx with ⟨message', hm, -⟩ | he
    · rw [succeeds.silent] at hm
      cases hm
    · cases he
  · simp at hx

end Course

end Machine

namespace FreshnessAux

/-- A document whose text is edited while its watchers are told of another edit, by an observer that is told first, and the first
step of the parse that its handler begins then. -/
def nested : List Call :=
  [.document "d" "[" none, .onDocument "d" (.observe "o" ⟨some .multiLine, 1, [.onDocument "d" (.edit (.setText "[]\n]"))]⟩),
    .handler "h" ⟨true, some "d", [.built (.ok brackets)], .standard⟩, .onDocument "d" (.edit (.setText "[[")), .drive .tick 1]

/-- The machines up to the end of that step. -/
def cleared : List Machine × Machine := Machine.talk 64 nested ([], ⟨.new .standard, [], none⟩)

/-- Where the second step begins. -/
def parsing : Machine := (Machine.ask cleared.2.session (.drive .tick 1)).settle 2

theorem handlers_parsing :
    parsing.session.handlers.map (fun hd => (hd.document, hd.grammar, hd.slot, hd.isDisposed)) = [(0, brackets, 0, false)] := by
  decide +kernel

/-- How far the parse is whose worker is taken out of its slot. -/
def phase? (m : Machine) : Option JobPhase :=
  m.begun?.bind fun begun =>
    match begun.2.body with
    | .scripted .. => none
    | .parsing _ job _ => some job.phase

end FreshnessAux

namespace Machine

namespace Course

/-- A handler parses the text that was set last, also when this was done in the middle of the news of another change. -/
theorem current_nested : ∃ (past : List Machine) (m : Machine), Course past m ∧
    (m.session.document 0).buffer.texts = ["[]", "]"] ∧ ∃ i job token, m.Begins 0 ⟨i, .parsing 0 job token⟩ ∧
      job.phase = .parse ∧ job.Succeeds (m.session.document 0).buffer := by
  have run := (((Course.new .standard).talk 64 nested).ask (.drive .tick 1) (by decide +kernel)).settle 2
  have quiet : ∀ p ∈ (Machine.ask cleared.2.session (.drive .tick 1)).passed 2 (cleared.2 :: cleared.1),
      ¬ Reenters p.agenda := by decide +kernel
  obtain ⟨hd, hone, hfields⟩ := List.map_eq_singleton_iff.1 handlers_parsing
  obtain ⟨hdoc, hgrammar, hslot, hlive⟩ := by simpa using hfields
  have held : parsing.session.handlers[0]? = some hd := by rw [hone]; rfl
  have built : bracketSpec.build .standard = .ok hd.grammar := by
    rw [hgrammar]
    decide +kernel
  obtain ⟨w, begins⟩ : ∃ w, parsing.Begins hd.slot w := begins_of_begun (by rw [hslot]; decide +kernel)
  obtain ⟨i, job, rfl, -, succeeds, -⟩ := run.current quiet held hlive built begins
  have hphase : phase? parsing = some .parse := by decide +kernel
  rw [phase?, show parsing.begun? = _ from begins] at hphase
  rw [hdoc, hslot] at begins
  rw [hdoc] at succeeds
  exact ⟨_, parsing, run, by decide +kernel, i, job, hd.token, begins, Option.some.inj hphase, succeeds⟩

end Course

end Machine

end LiveHighlight
