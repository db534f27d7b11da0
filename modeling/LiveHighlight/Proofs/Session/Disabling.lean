import LiveHighlight.Proofs.Session.Freshness
import LiveHighlight.Proofs.Session.Vacancy

/-!
# A handler that is disabled leaves no annotations

Disabling a handler stops its slot and takes all annotations off its document. From then on the slot is unused and the document
has no annotations, whatever is done to the document and the handler, until the handler is enabled again, which code that is
told of the missing annotations may do at once (`Course.disabled`). Annotations written by other hands, and by parses out of
other slots, are not spoken of.

A step of a parse may be under way when the handler is disabled. It has written all that it is going to write: only the last
slice of a parse has something to tell (`Course.written`), so code of the host is not heard before a parse is over.
-/

namespace LiveHighlight

namespace Buffer

variable {b b' : Buffer}

theorem hasAnnotations_eq_false : b.hasAnnotations = false ↔ ∀ line ∈ b.lines, line.annotations = [] := by
  simp [hasAnnotations]

/-- The lines of a text carry no annotations. -/
theorem annotations_of_mem_linesOf {text : String} {line : Line} (h : line ∈ linesOf text) : line.annotations = [] := by
  obtain ⟨piece, -, rfl⟩ := List.mem_map.1 h
  rfl

@[simp] theorem hasAnnotations_ofText (text : String) : (ofText text).hasAnnotations = false :=
  hasAnnotations_eq_false.2 fun _ => annotations_of_mem_linesOf

@[simp] theorem hasAnnotations_clear (b : Buffer) : b.clear.hasAnnotations = false := by
  simp [hasAnnotations_eq_false, clear, Line.ofText]

/-- An edit brings no annotations. -/
theorem hasAnnotations_edit {e : Edit} {event : BufferEvent} (he : b.edit e = .ok (b', event)) (hb : b.hasAnnotations = false) :
    b'.hasAnnotations = false := by
  refine hasAnnotations_eq_false.2 fun line hline => ?_
  rcases mem_of_edit he hline with hold | hnew
  · exact hasAnnotations_eq_false.1 hb line hold
  · exact annotations_of_mem_linesOf hnew

end Buffer

namespace ParseJob

/-- Whether a job has written all that it is going to write. -/
def HasWritten (j : ParseJob) : Prop := j.phase = .announce ∨ j.phase = .done

variable {j : ParseJob} {cancelled : Bool} {b : Buffer}

/-- Such a job leaves the lines alone. -/
theorem buffer_of_hasWritten (h : j.HasWritten) : (j.step cancelled b).buffer = b := by
  unfold step
  rcases h with h | h <;> simp only [h] <;> split <;> rfl

theorem hasWritten_step (h : j.HasWritten) : (j.step cancelled b).job.HasWritten := by
  unfold step
  rcases h with h | h <;> simp only [h] <;> split <;> simp [HasWritten, h]

/-- A job has written everything when it has something to tell. -/
theorem hasWritten_of_tells {d : Nat} (h : (j.step cancelled b).tells d ≠ []) : (j.step cancelled b).job.HasWritten := by
  unfold step at h ⊢
  split
  · exact .inr rfl
  · next hc =>
    rw [if_neg hc] at h
    split
    · next hp => simp [hp, JobStep.tells] at h
    · next hp =>
      simp only [hp, JobStep.tells] at h
      simp only [HasWritten]
      split
      · next hr =>
        have silent := (j.sink.advance_listener j.sink.snapshot.stream j.stepsPerSlice j.run ⟨b, none⟩).2 hr
        simp [show (j.slice b).2.complaint = none from silent] at h
      · exact .inl rfl
    · exact .inr rfl
    · next hp => exact .inr hp

end ParseJob

/-- Whether a task ends a step of a parse that goes on writing. -/
def Task.writesOn : Task → Bool
  | .conclude _ _ _ ⟨_, .parsing _ job _⟩ _ => decide (job.phase = .clear ∨ job.phase = .parse)
  | _ => false

namespace Machine

/-- Whether the first task enables a handler. -/
def enables (m : Machine) (h : Nat) : Bool :=
  match m.agenda with
  | .call (.onHandler name (.enable true)) _ :: _ => decide (m.session.names.handlers.get? name = some h)
  | _ => false

/-- Whether the first task may write annotations of a document by other hands than those of the parse in a slot: the host does
so, or a parse out of another slot takes a step. -/
def annotates (m : Machine) (d k : Nat) : Bool :=
  match m.agenda with
  | .call (.onDocument doc (.annotate ..)) _ :: _ => decide (m.session.names.documents.get? doc = some d)
  | .call (.onSink name _) _ :: _ => decide ((m.session.names.sinks.get? name).map (·.1) = some d)
  | .call (.stepWorker name) _ :: _ => decide ((m.session.names.workers.get? name).bind Worker.document? = some d)
  | _ => m.begun?.any fun (slot, w) => decide (slot ≠ k ∧ w.document? = some d)

end Machine

namespace DisablingAux

open FateAux VacancyAux

variable {p q m : Machine} {s : Session} {t : Task} {k : Desk}
  {rest new : List Task} {d h id : Nat} {hd : Handler}

/-! ### Annotations -/

theorem buffer_setBuffer (k : Desk) (d id : Nat) (b : Buffer) : ((k.setBuffer id b).document d).buffer = (k.document d).buffer ∨
    id = d ∧ ((k.setBuffer id b).document d).buffer = b := by
  by_cases hid : d = id
  · subst hid
    by_cases hd : d < k.documents.length
    · exact .inr ⟨rfl, TextAux.buffer_setBuffer_self hd b⟩
    · refine .inl ?_
      simp [Desk.setBuffer, Desk.update, Desk.document, List.getElem?_eq_none (Nat.le_of_not_lt hd)]
  · exact .inl (TextAux.buffer_setBuffer_ne hid k b)

/-- A document stays without annotations if it gets other lines without annotations. -/
theorem plain_setBuffer {b : Buffer} (plain : (k.document d).buffer.hasAnnotations = false)
    (hb : id = d → b.hasAnnotations = false) : ((k.setBuffer id b).document d).buffer.hasAnnotations = false := by
  rcases buffer_setBuffer k d id b with he | ⟨hid, he⟩
  · rw [he, plain]
  · rw [he, hb hid]

/-- A document has no annotations when they were taken off. -/
theorem plain_cleared (k : Desk) (d : Nat) :
    ((k.setBuffer d (k.document d).buffer.clear).document d).buffer.hasAnnotations = false := by
  by_cases hd : d < k.documents.length
  · rw [TextAux.buffer_setBuffer_self hd]
    exact Buffer.hasAnnotations_clear _
  · simp only [Desk.setBuffer, Desk.update, Desk.document, List.getElem?_modify, List.getElem?_eq_none (Nat.le_of_not_lt hd)]
    rfl

/-- What is no round and writes no annotations brings none. -/
theorem plain_page (plain : (s.document d).buffer.hasAnnotations = false) (hr : ∀ r, t ≠ .round r)
    (hformat : ∀ doc call asker, call.isFormatting = true → t = .call (.onDocument doc call) asker →
      s.names.documents.get? doc ≠ some d)
    (hsink : ∀ name call asker, t = .call (.onSink name call) asker → (s.names.sinks.get? name).map (·.1) ≠ some d)
    (hstep : ∀ name asker, t = .call (.stepWorker name) asker → (s.names.workers.get? name).bind Worker.document? ≠ some d)
    (page : Page s t k new) : (k.document d).buffer.hasAnnotations = false := by
  have same (hk : (k.document d).buffer = (s.document d).buffer) : (k.document d).buffer.hasAnnotations = false := by
    rw [hk, plain]
  cases page with
  | document =>
    simp only [Desk.document, List.getElem?_append]
    split
    · exact plain
    · cases d - s.documents.length with
      | zero => simp
      | succ => rfl
  | edit _ he =>
    refine plain_setBuffer (k := s.desk) plain ?_
    rintro rfl
    exact Buffer.hasAnnotations_edit he plain
  | format hd hf =>
    refine plain_setBuffer (k := s.desk) plain ?_
    rintro rfl
    exact absurd hd (hformat _ _ _ hf rfl)
  | write hs =>
    refine plain_setBuffer (k := s.desk) plain ?_
    rintro rfl
    exact absurd (by simp [hs]) (hsink _ _ _ rfl)
  | clear => exact plain_setBuffer (k := s.desk) plain fun _ => Buffer.hasAnnotations_clear _
  | pass | play | work => exact absurd rfl (hr _)
  | rehearse hw =>
    refine plain_setBuffer (k := s.desk) plain ?_
    rintro rfl
    exact absurd (by simp [hw, Worker.document?]) (hstep _ _ rfl)
  | observe | attach | raise | unobserve | dispose => exact same (TextAux.buffer_subscribe ..)
  | _ => exact same rfl

/-- A round brings no annotations to a document unless a parse out of another slot takes a step, if the parses in the slot have
written everything. -/
theorem plain_round {r : Round} (plain : (q.session.document hd.document).buffer.hasAnnotations = false)
    (ha : q.agenda = .round r :: rest) (alone : q.annotates hd.document hd.slot = false)
    (lodgers : ∀ w, (q.session.scheduler.slot hd.slot).worker = some w → w.Parses hd ParseJob.HasWritten) :
    ((({ q with agenda := rest } : Machine).round r).session.document hd.document).buffer.hasAnnotations = false := by
  cases hr : r.due with
  | nil =>
    simp only [Machine.round, hr, Machine.endRound]
    split
    · exact plain
    · cases r.drive.asker <;> exact plain
  | cons slot due =>
    simp only [Machine.round, hr]
    split
    · next s w g hclaim =>
      have hstep : (q.session.scheduler.claim slot r.now).2 = .step w g := by rw [hclaim]
      have begins : q.begun? = some (slot, w) := Machine.begins_iff.2 ⟨r, due, rest, g, ha, hr, hstep⟩
      have others : slot ≠ hd.slot → w.document? ≠ some hd.document := by
        simpa [Machine.annotates, ha, begins] using alone
      obtain ⟨i, body⟩ := w
      cases body with
      | scripted => exact plain
      | parsing id job token =>
        refine plain_setBuffer (k := q.session.desk) plain ?_
        rintro rfl
        have hslot : slot = hd.slot := by
          by_contra hne
          exact others hne rfl
        subst hslot
        obtain ⟨i', job', he, written⟩ := lodgers _ (Scheduler.claim_step hstep).2.1
        cases he
        rw [ParseJob.buffer_of_hasWritten written]
        exact plain
    · exact plain

/-- No task brings annotations to a document unless other hands write some, if the parses in the slot wrote everything. -/
theorem plain_run (plain : (q.session.document hd.document).buffer.hasAnnotations = false) (ha : q.agenda = t :: rest)
    (alone : q.annotates hd.document hd.slot = false)
    (lodgers : ∀ w, (q.session.scheduler.slot hd.slot).worker = some w → w.Parses hd ParseJob.HasWritten) :
    (({ q with agenda := rest }.run t).session.document hd.document).buffer.hasAnnotations = false := by
  by_cases hround : ∃ r, t = .round r
  · obtain ⟨r, rfl⟩ := hround
    exact plain_round plain ha alone lodgers
  by_cases hclear : ∃ doc asker, t = .call (.onDocument doc .clear) asker
  · obtain ⟨doc, asker, rfl⟩ := hclear
    simp only [Machine.run, Machine.perform]
    cases q.session.names.documents.get? doc with
    | none => cases asker <;> exact plain
    | some id =>
      have cleared := plain_setBuffer (k := q.session.desk) plain fun _ : id = hd.document =>
        Buffer.hasAnnotations_clear (q.session.document id).buffer
      cases asker <;> exact cleared
  rcases Machine.run_page { q with agenda := rest } t with hc | ⟨new, -, page⟩
  · rw [hc]
    exact plain
  refine plain_page plain (fun r hr => hround ⟨r, hr⟩) ?_ ?_ ?_ page
  · rintro doc call asker hf rfl hd
    cases call with
    | clear => exact hclear ⟨doc, asker, rfl⟩
    | annotate => simp [Machine.annotates, ha, hd] at alone
    | _ => cases hf
  · rintro name call asker rfl hs
    simp [Machine.annotates, ha, hs] at alone
  · rintro name asker rfl hw
    simp [Machine.annotates, ha, hw] at alone

/-! ### Parses that are over -/

/-- Of what a task leaves, only the first may end a step of a parse that goes on writing. -/
theorem writesOn_new {s' : Session} (turn : Turn s.office t s'.office new) (page : Page s t s'.desk new) :
    ∀ x ∈ new.tail, x.writesOn = false := by
  intro x hx
  cases x with
  | conclude r slot g w outcome =>
    obtain ⟨r', rfl⟩ := StrokeAux.conclude_turn turn (List.mem_of_mem_tail hx)
    generalize s'.desk = k' at page
    cases page with
    | quiet ht => cases ht
    | pass hn => rcases hn with rfl | ⟨d, rfl⟩ | ⟨r', rfl⟩ <;> simp at hx
    | play =>
      obtain ⟨-, -, -, rfl, -⟩ := by simpa using hx
      rfl
    | @work _ _ _ _ _ id job token =>
      cases ht : (job.step (s.isCancelled token) (s.document id).buffer).tells id with
      | nil => simp [ht] at hx
      | cons y tells =>
        have written := ParseJob.hasWritten_of_tells (show _ ≠ [] by rw [ht]; simp)
        have hmem := List.mem_of_mem_tail hx
        rcases List.mem_append.1 hmem with hmem | hmem
        · rcases JobStep.mem_tells hmem with ⟨message, -, he⟩ | he <;> cases he
        · simp only [List.mem_singleton, Task.conclude.injEq] at hmem
          obtain ⟨-, -, -, rfl, -⟩ := hmem
          rcases written with hw | hw <;> simp [Task.writesOn, hw]
  | _ => rfl

/-- When a slot is stopped and nothing else is about to settle it, the parses that lodge there have written everything. -/
theorem written_of_stop (ha : p.agenda = .stop hd.slot :: rest) (quarters : Quarters hd p.session p.agenda)
    (alone : ∀ x ∈ rest, x.settles hd.slot = false) (hwritten : ∀ x ∈ rest, x.writesOn = false) :
    ∀ w, (∃ x ∈ rest, x.lodger? hd.slot = some w) → w.Parses hd ParseJob.HasWritten := by
  rintro w ⟨x, hx, hl⟩
  obtain ⟨i, job, rfl, -⟩ := quarters.lodgers w (.inr ⟨x, ha ▸ .tail _ hx, hl⟩)
  refine ⟨i, job, rfl, ?_⟩
  have unsettling := alone x hx
  cases x with
  | conclude =>
    obtain ⟨-, rfl⟩ := OriginAux.of_lodger hl
    have hphase := hwritten _ hx
    simp only [Task.writesOn, decide_eq_false_iff_not, not_or] at hphase
    unfold ParseJob.HasWritten
    cases hp : job.phase <;> simp_all
  | install | seat | close =>
    simp only [Task.settles, decide_eq_false_iff_not] at unsettling
    simp [Task.lodger?, unsettling] at hl
  | _ => cases hl

/-! ### Being asked for nothing -/

/-- A handler that is disabled stays so and is asked for no parse until it is enabled. -/
theorem dormant_page (page : Page s t k new) (held : s.handlers[h]? = some hd) (disabled : hd.enabled = false)
    (never : ∀ name asker, t = .call (.onHandler name (.enable true)) asker → s.names.handlers.get? name ≠ some h) :
    (∃ hd', k.handlers[h]? = some hd' ∧ hd'.enabled = false) ∧ .requestParse h ∉ new := by
  have stays : ∃ hd', k.handlers[h]? = some hd' ∧ hd'.enabled = false := by
    cases page with
    | attach => exact ⟨hd, (List.getElem?_append_left (List.getElem?_eq_some_iff.1 held).1).trans held, disabled⟩
    | @enable name id other on asker hn =>
      by_cases hid : id = h
      · subst hid
        cases on with
        | true => exact absurd hn (never name asker rfl)
        | false => exact ⟨{ hd with enabled := false }, by simp [held], rfl⟩
      · exact ⟨hd, (StrokeAux.handler_modify_ne hid ..).trans held, disabled⟩
    | @dispose id =>
      by_cases hid : id = h
      · subst hid
        exact ⟨{ hd with subscription := none }, by simp [held], disabled⟩
      · exact ⟨hd, (StrokeAux.handler_modify_ne hid ..).trans held, disabled⟩
    | _ => exact ⟨hd, held, disabled⟩
  refine ⟨stays, fun hx => ?_⟩
  obtain ⟨hd', held', disabled'⟩ := stays
  have enabled := (FreshnessAux.asked_page page held' hx).1
  rw [disabled'] at enabled
  cases enabled

/-! ### Disabling -/

/-- Whether a machine comes from another one by the call that disables a handler, so that its slot is to be stopped and the
annotations are to be taken off its document. -/
structure Disabling (h : Nat) (hd : Handler) (asker : Asker) (rest : List Task) (p n : Machine) : Prop where
  agenda : n.agenda = .stop hd.slot :: .clear hd.document :: .raise hd.document .formatted :: .answer asker .done :: rest
  scheduler : n.session.scheduler = p.session.scheduler
  held : n.session.handlers[h]? = some hd
  off : hd.enabled = false

theorem run_disable {name : String} (asker : Asker) (rest : List Task) (hn : p.session.names.handlers.get? name = some h)
    (held : p.session.handlers[h]? = some hd) (live : hd.isDisposed = false) : ∃ hd', hd.Later hd' ∧
      Disabling h hd' asker rest p ({ p with agenda := rest }.run (.call (.onHandler name (.enable false)) asker)) := by
  refine ⟨{ hd with enabled := false }, ⟨rfl, rfl, rfl, rfl, rfl, fun _ => rfl⟩, ?_⟩
  simp only [Machine.run, Machine.perform, hn, held, Machine.find, Machine.onHandler, live]
  exact ⟨rfl, rfl, by simp [Machine.push, Machine.put, Session.updateHandler, held], rfl⟩

theorem Disabling.agenda_ne {asker : Asker} {n : Machine} (hn : Disabling h hd asker rest p n) : n.agenda ≠ rest := by
  intro he
  have hlength := congrArg List.length (hn.agenda.symm.trans he)
  simp only [List.length_cons] at hlength
  omega

theorem Disabling.recalls {asker : Asker} {n : Machine} {c : Call} {k : Nat} (hn : Disabling h hd asker rest p n)
    (ha : p.agenda = .call c asker :: rest) (hr : n.Recalls k) : p.Recalls k := by
  refine recalls_of hn.scheduler (fun x hx hc => ?_) hr
  rw [hn.agenda] at hx
  rw [ha]
  simp only [List.mem_cons] at hx ⊢
  rcases hx with rfl | rfl | rfl | rfl | hx
  iterate 4 cases hc
  exact .inr hx

end DisablingAux

open DisablingAux

namespace Machine

namespace Course

variable {later earlier past : List Machine} {p m : Machine} {rest : List Task} {h : Nat} {hd : Handler}

/-- Behind the first task, every parse whose step is under way has written all that it is going to write. -/
theorem written (run : Course past m) : ∀ x ∈ m.agenda.tail, x.writesOn = false := by
  induction run with
  | new options => simp
  | ask c _ _ _ => simp [Machine.ask]
  | @step past m t rest run ha ih =>
    rw [ha] at ih
    rcases run.page ha with hc | ⟨new, hn, turn, page⟩
    · simp [hc.1]
    · rw [hn]
      intro x hx
      cases new with
      | nil => exact ih x (List.mem_of_mem_tail hx)
      | cons y new =>
        rcases List.mem_append.1 hx with hx | hx
        · exact writesOn_new turn page x hx
        · exact ih x hx

/-- A handler that is disabled is asked for no parse until it is enabled. -/
theorem dormant {name : String} {asker : Asker} (run : Course (later ++ p :: earlier) m)
    (ha : p.agenda = .call (.onHandler name (.enable false)) asker :: rest) (hn : p.session.names.handlers.get? name = some h)
    (held : p.session.handlers[h]? = some hd) (live : hd.isDisposed = false) (never : ∀ q ∈ later, q.enables h = false) :
    m.Crashed ∨ .requestParse h ∉ m.agenda := by
  refine (run.after (P := fun q => q.enables h = false) (I := fun q => q.Crashed ∨
    (∃ hd', q.session.handlers[h]? = some hd' ∧ hd'.enabled = false) ∧ .requestParse h ∉ q.agenda) ha never ?_ ?_ ?_).imp_right
      And.right
  · obtain ⟨hd', -, hnext⟩ := run_disable asker rest hn held live
    refine .inr ⟨⟨hd', hnext.held, hnext.off⟩, fun hx => ?_⟩
    have unhurried := run.before.unhurried
    rw [ha] at unhurried
    rw [hnext.agenda] at hx
    have horder := unhurried (.requestParse h) (by simpa using hx)
    cases horder
  · intro past q c run never hi idle
    exact .inr ⟨(hi.resolve_left idle.not_crashed).1, by simp [Machine.ask]⟩
  · intro past q t tasks run never hi hx
    obtain ⟨⟨hd', held', disabled⟩, unasked⟩ := hi.resolve_left (not_crashed_of_agenda hx)
    rcases run.page hx with hc | ⟨new, hn, -, page⟩
    · exact .inl hc
    have never' : ∀ name asker, t = .call (.onHandler name (.enable true)) asker →
        q.session.names.handlers.get? name ≠ some h := by
      rintro name asker rfl
      simpa [Machine.enables, hx] using never
    obtain ⟨stays, hnew⟩ := dormant_page page held' disabled never'
    refine .inr ⟨stays, fun hr => ?_⟩
    rw [hn] at hr
    rcases List.mem_append.1 hr with hr | hr
    · exact hnew hr
    · exact unasked (hx ▸ .tail _ hr)

/-- From the stop of a handler's slot on, the parses that lodge there have written everything, until one is requested anew. -/
theorem lodgers_written (run : Course (later ++ p :: earlier) m) (ha : p.agenda = .stop hd.slot :: rest)
    (held : p.session.handlers[h]? = some hd) (alone : ∀ x ∈ rest, x.settles hd.slot = false)
    (unasked : ∀ q ∈ later, ∀ i, ¬ q.Requests h i) :
    m.Crashed ∨ ∀ w, m.session.office.Lodges m.agenda hd.slot w → w.Parses hd ParseJob.HasWritten := by
  have quarters := (run.before.quarters held).resolve_left (not_crashed_of_agenda ha)
  have hwritten := run.before.written
  rw [ha] at hwritten
  refine run.since_stop (I := fun s agenda => ∀ w, ((s.slot hd.slot).worker = some w ∨ ∃ x ∈ agenda, x.lodger? hd.slot = some w) →
    w.Parses hd ParseJob.HasWritten) ha held unasked (fun hk => ?_) ?_ ?_
  · rintro w (hw | ⟨x, hx, hl⟩)
    · cases (VacancyAux.worker_stop hk).symm.trans hw
    · rcases List.mem_append.1 hx with hx | hx
      · obtain ⟨old, -, rfl⟩ := List.mem_map.1 hx
        cases hl
      · exact written_of_stop ha quarters alone hwritten w ⟨x, hx, hl⟩
  · rintro s c hs w (hw | ⟨x, hx, hl⟩)
    · exact hs w (.inl hw)
    · rw [List.mem_singleton.1 hx] at hl
      cases hl
  · intro q t tasks new s' _ _ hs _ turn page _ hi
    exact HandlerSlotAux.lodgers_step hs (fun _ _ _ => ParseJob.hasWritten_step) (fun w delay hx => absurd hx (hi w delay)) turn page

/-- Once the annotations of a handler's document are taken off, it has none until other hands write some, if the parses in the
slot have written everything. -/
theorem plain (run : Course (later ++ p :: earlier) m) (ha : p.agenda = .clear hd.document :: rest)
    (alone : ∀ q ∈ later, q.annotates hd.document hd.slot = false)
    (lodgers : ∀ q ∈ later, ∀ w, (q.session.scheduler.slot hd.slot).worker = some w → w.Parses hd ParseJob.HasWritten) :
    (m.session.document hd.document).buffer.hasAnnotations = false := by
  refine run.after (P := (· ∈ later)) (I := fun q => (q.session.document hd.document).buffer.hasAnnotations = false) ha
    (fun _ => id) (plain_cleared p.session.desk hd.document) (fun c _ _ plain _ => plain) ?_
  exact fun _ hq plain hx => plain_run plain hx (alone _ hq) (lodgers _ hq)

/-- The document of a handler that is disabled has no annotations once its slot is stopped and the annotations are taken off. -/
theorem cleared (run : Course (later ++ p :: earlier) m) (ha : p.agenda = .stop hd.slot :: .clear hd.document :: rest)
    (held : p.session.handlers[h]? = some hd) (alone : ∀ x ∈ rest, x.settles hd.slot = false)
    (unasked : ∀ q ∈ later, ∀ i, ¬ q.Requests h i) (others : ∀ q ∈ later, q.annotates hd.document hd.slot = false)
    (returned : ∃ q ∈ m :: later, q.agenda.length ≤ rest.length) :
    m.Crashed ∨ (m.session.document hd.document).buffer.hasAnnotations = false := by
  obtain ⟨q, hq, hle⟩ := returned
  rcases run.passes ha held ⟨q, hq, Nat.lt_succ_of_le hle⟩ with hc | ⟨c, hc, hclear⟩
  · exact .inl hc
  have lodgers : ∀ q ∈ later, ∀ w, (q.session.scheduler.slot hd.slot).worker = some w → w.Parses hd ParseJob.HasWritten := by
    intro q hq w hw
    obtain ⟨between, run', hsub⟩ := run.of_later (List.mem_cons_of_mem _ hq)
    have hnot := VacancyAux.not_crashed_of_passed run (List.mem_append_left _ hq)
    have written := run'.lodgers_written ha held (List.forall_mem_cons.2 ⟨rfl, alone⟩) fun x hx => unasked x (hsub hx)
    exact written.resolve_left hnot w (.inl hw)
  obtain ⟨after, before, rfl⟩ := List.append_of_mem hc
  rw [List.append_assoc, List.cons_append] at run
  refine .inr (run.plain hclear (fun q hq => others q ?_) fun q hq => lodgers q ?_)
  all_goals exact List.mem_append_left _ hq

/-- A handler that is disabled leaves no annotations, whoever disables it and wherever. From the return of the call on, as long
as the handler has not been enabled since the call and no other hands write annotations, its document has none, and its slot is
free, empty and off the list of pending ones. Only where an error site of the session made calls, by which work was let run, the
slot may recall a worker whose step was under way at the call; it is free and off the list then as well, until it is started. -/
theorem disabled {name : String} {asker : Asker} (run : Course (later ++ p :: earlier) m)
    (ha : p.agenda = .call (.onHandler name (.enable false)) asker :: rest) (hn : p.session.names.handlers.get? name = some h)
    (held : p.session.handlers[h]? = some hd) (live : hd.isDisposed = false) (never : ∀ q ∈ later, q.enables h = false)
    (alone : ∀ q ∈ later, q.annotates hd.document hd.slot = false) (returned : ∃ q ∈ m :: later, q.agenda = rest) :
    m.Crashed ∨ (m.session.document hd.document).buffer.hasAnnotations = false ∧
      (m.session.scheduler.Unused hd.slot ∨
        (p.Recalls hd.slot ∧ (∃ q ∈ earlier, Reenters q.agenda) ∧ ∃ q ∈ earlier, q.session.Speaks) ∧
          (m.session.scheduler.Rests hd.slot ∨ ∃ q ∈ later, q.Arms hd.slot)) := by
  have before := run.before
  have quarters := (before.quarters held).resolve_left (not_crashed_of_agenda ha)
  rw [ha] at quarters
  have unsettling := HandlerSlotAux.unsettling_of_head quarters rfl (by simp)
  have unasked : ∀ q ∈ later, ∀ i, ¬ q.Requests h i := by
    rintro q hq i ⟨hd', rest', ha', -⟩
    obtain ⟨between, run', hsub⟩ := run.of_later (List.mem_cons_of_mem _ hq)
    have hnone := (run'.dormant ha hn held live fun x hx => never x (hsub hx)).resolve_left (not_crashed_of_agenda ha')
    exact hnone (ha' ▸ .head _)
  obtain ⟨hd', later', hnext⟩ := run_disable asker rest hn held live
  obtain ⟨q, hq, hrest⟩ := returned
  rcases VacancyAux.next_course run ha with ⟨rfl, rfl⟩ | ⟨later, rfl, run'⟩
  · exact absurd (List.mem_singleton.1 hq ▸ hrest) hnext.agenda_ne
  have hq' : q ∈ m :: later := VacancyAux.mem_of_agenda hq hrest hnext.agenda_ne
  rw [← later'.slot] at unsettling ⊢
  rw [← later'.slot, ← later'.document] at alone
  rw [← later'.document]
  have rests : ∀ x ∈ .raise hd'.document .formatted :: .answer asker .done :: rest, x.settles hd'.slot = false := by
    simpa [Task.settles] using unsettling
  have hle : q.agenda.length ≤ (.raise hd'.document .formatted :: .answer asker .done :: rest : List Task).length := by
    simp only [hrest, List.length_cons]
    omega
  rcases run'.cleared hnext.agenda hnext.held rests (fun x hx => unasked x (List.mem_append_left _ hx))
    (fun x hx => alone x (List.mem_append_left _ hx)) ⟨q, hq', hle⟩ with hc | plain
  · exact .inl hc
  refine (run'.stopped hnext.agenda hnext.held (List.forall_mem_cons.2 ⟨rfl, rests⟩)
    fun x hx => unasked x (List.mem_append_left _ hx)).imp_right fun hslot => ⟨plain, ?_⟩
  rcases hslot with unused | ⟨hr, hslot⟩
  · exact .inl unused
  · have recalls := hnext.recalls ha hr
    refine .inr ⟨⟨recalls, before.reenters recalls, before.speaks held ha rfl rfl (by simp) (later'.slot ▸ recalls)⟩, ?_⟩
    rcases hslot with rests | ⟨q, hq, harms⟩
    · exact .inl rests
    · exact .inr ⟨q, List.mem_append_left _ hq, harms⟩

end Course

end Machine

namespace DisablingAux

/-- A document that a handler parses, and an observer that enables or disables the handler when it is told for the first time
that annotations are renewed. -/
def watched (on : Bool) : List Machine × Machine :=
  Machine.talk 64
    [.document "d" "[]" none, .handler "h" ⟨true, some "d", [.built (.ok brackets)], .standard⟩,
     .onDocument "d" (.observe "o" ⟨some .formatted, 1, [.onHandler "h" (.enable on)]⟩)]
    ([], ⟨.new .standard, [], none⟩)

/-- The handler is disabled when its first parse announces that it is over. Later the document is loaded anew, and the handler
is asked for a parse and started. -/
def silenced : List Machine × Machine :=
  Machine.talk 64
    [.onHandler "h" .reparse, .drive .untilIdle 9, .onDocument "d" (.edit (.load "[[]]")), .onHandler "h" .reparse,
     .onHandler "h" (.execute WorkCommand.play.id), .drive .untilIdle 9]
    (watched false)

/-- The host disables a handler that an observer enables at once. -/
def disabling : Machine := Machine.ask (watched true).2.session (.onHandler "h" (.enable false))

/-- Then all work is let run. -/
def reviving : Machine := Machine.ask (disabling.settle 64).session (.drive .untilIdle 9)

/-- Whether the first handler, which is not disposed of, is to be disabled. -/
def disables (m : Machine) : Bool :=
  match m.agenda, m.session.handlers[0]? with
  | .call (.onHandler name (.enable false)) _ :: _, some hd =>
    decide (m.session.names.handlers.get? name = some 0) && decide (hd.document = 0) && decide (hd.slot = 0) && !hd.isDisposed
  | _, _ => false

theorem of_disables (hm : disables m = true) : ∃ name asker rest hd,
    m.agenda = .call (.onHandler name (.enable false)) asker :: rest ∧ m.session.names.handlers.get? name = some 0 ∧
      m.session.handlers[0]? = some hd ∧ hd.document = 0 ∧ hd.slot = 0 ∧ hd.isDisposed = false := by
  unfold disables at hm
  split at hm
  · next ha hh =>
    simp only [Bool.and_eq_true, decide_eq_true_eq, Bool.not_eq_true'] at hm
    exact ⟨_, _, _, _, ha, hm.1.1.1, hh, hm.1.1.2, hm.1.2, hm.2⟩
  · cases hm

end DisablingAux

namespace Machine

namespace Course

/-- A handler that an observer disables in the middle of the step in which its parse announces that it is over leaves no
annotations. -/
theorem disabled_within : ∃ (later earlier : List Machine) (p m : Machine) (name : String) (asker : Asker) (rest : List Task),
    Course (later ++ p :: earlier) m ∧ m.Idle ∧ p.agenda = .call (.onHandler name (.enable false)) asker :: rest ∧
      (p.session.scheduler.slot 0).phase = .running ∧ (p.session.document 0).buffer.hasAnnotations = true ∧
      (∀ q ∈ later, q.enables 0 = false) ∧ (∀ q ∈ later, q.annotates 0 0 = false) ∧ (∃ q ∈ m :: later, q.agenda = rest) ∧
      (m.session.document 0).buffer.hasAnnotations = false ∧ m.session.scheduler.Unused 0 := by
  have opening : Course (watched false).1 (watched false).2 := (Course.new .standard).talk 64 _
  have run : Course silenced.1 silenced.2 := opening.talk 64 _
  have idle : silenced.2.Idle := by decide +kernel
  have never : ∀ x ∈ silenced.1, x.enables 0 = false := by decide +kernel
  have alone : ∀ x ∈ silenced.1, x.annotates 0 0 = false := by decide +kernel
  have quiet : ∀ x ∈ silenced.1, ¬ Reenters x.agenda := by decide +kernel
  obtain ⟨p, hp, hd⟩ := List.any_eq_true.1 (show silenced.1.any (fun x => disables x &&
    decide ((x.session.scheduler.slot 0).phase = .running) && (x.session.document 0).buffer.hasAnnotations) = true by
      decide +kernel)
  -- from here on it does not matter which machines these are
  generalize silenced.2 = m at run idle
  generalize silenced.1 = past at run never alone quiet hp
  simp only [Bool.and_eq_true, decide_eq_true_eq] at hd
  obtain ⟨⟨hd, running⟩, formatted⟩ := hd
  obtain ⟨name, asker, rest, hd, ha, hn, held, hdoc, hslot, live⟩ := of_disables hd
  obtain ⟨later, earlier, rfl⟩ := List.append_of_mem hp
  have never' : ∀ q ∈ later, q.enables 0 = false := fun q hq => never q (List.mem_append_left _ hq)
  have alone' : ∀ q ∈ later, q.annotates 0 0 = false := fun q hq => alone q (List.mem_append_left _ hq)
  have returned := run.ends ha idle
  obtain ⟨plain, hunused⟩ := (run.disabled ha hn held live never' (by rwa [hdoc, hslot]) returned).resolve_left idle.not_crashed
  rw [hdoc] at plain
  rw [hslot] at hunused
  refine ⟨later, earlier, p, m, name, asker, rest, run, idle, ha, running, formatted, never', alone', returned, plain,
    hunused.resolve_right ?_⟩
  rintro ⟨⟨-, ⟨q, hq, hre⟩, -⟩, -⟩
  exact quiet q (by simp [hq]) hre

/-- Enabled by an observer of the news that disabling it raises, a handler is not disabled when the call that disables it
returns: its slot is in use, and its document has annotations in the end, although nobody enabled it since. -/
theorem disabled_revived : ∃ (later between earlier : List Machine) (p q m : Machine) (hd : Handler),
    Course (later ++ q :: (between ++ p :: earlier)) m ∧ m.Idle ∧
      p.agenda = [.call (.onHandler "h" (.enable false)) .host] ∧ p.session.names.handlers.get? "h" = some 0 ∧
      p.session.handlers[0]? = some hd ∧ hd.isDisposed = false ∧ hd.document = 0 ∧ hd.slot = 0 ∧ q.agenda = [] ∧
      (∀ x ∈ q :: later, x.enables 0 = false) ∧ (∀ x ∈ later ++ q :: between, x.annotates 0 0 = false) ∧
      (q.session.scheduler.slot 0).phase ≠ .free ∧ (m.session.document 0).buffer.hasAnnotations = true := by
  have opening : Course (watched true).1 (watched true).2 := (Course.new .standard).talk 64 _
  have returning : Course (disabling.step.passed 63 [] ++ disabling :: ((watched true).2 :: (watched true).1))
      (disabling.settle 64) :=
    (opening.ask (.onHandler "h" (.enable false)) (by decide +kernel)).settle_succ 63 (by decide +kernel)
  have run := returning.asked (.drive .untilIdle 9) (by decide +kernel) 64
  have idle : (reviving.settle 64).Idle := by decide +kernel
  have returned : (disabling.settle 64).agenda.isEmpty = true := by decide +kernel
  have never : ∀ x ∈ disabling.settle 64 :: reviving.passed 64 [], x.enables 0 = false := by decide +kernel
  have alone : ∀ x ∈ reviving.passed 64 [] ++ disabling.settle 64 :: disabling.step.passed 63 [], x.annotates 0 0 = false := by
    decide +kernel
  have busy : ((disabling.settle 64).session.scheduler.slot 0).phase ≠ .free := by decide +kernel
  have formatted : ((reviving.settle 64).session.document 0).buffer.hasAnnotations = true := by decide +kernel
  have first : disables disabling = true := by decide +kernel
  have ha : disabling.agenda = [.call (.onHandler "h" (.enable false)) .host] := rfl
  change Course (reviving.passed 64 [] ++ _) (reviving.settle 64) at run
  -- from here on it does not matter which machines these are
  generalize disabling.settle 64 = q at run returned never alone busy
  generalize disabling.step.passed 63 [] = between at run alone
  generalize disabling = p at run ha first
  generalize (watched true).2 :: (watched true).1 = earlier at run
  generalize reviving.settle 64 = m at run idle formatted
  generalize reviving.passed 64 [] = later at run never alone
  obtain ⟨name, asker, rest, hd, ha', hn, held, hdoc, hslot, live⟩ := of_disables first
  obtain ⟨rfl, rfl⟩ : "h" = name ∧ Asker.host = asker := by
    cases ha.symm.trans ha'
    exact ⟨rfl, rfl⟩
  exact ⟨later, between, earlier, p, q, m, hd, run, idle, ha, hn, held, live, hdoc, hslot, List.isEmpty_iff.1 returned, never,
    alone, busy, formatted⟩

end Course

end Machine

end LiveHighlight
