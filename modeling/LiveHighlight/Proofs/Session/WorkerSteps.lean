import LiveHighlight.Proofs.Highlight.Endurance
import LiveHighlight.Proofs.Session.Finality
import LiveHighlight.Proofs.Session.Freshness
import LiveHighlight.Proofs.Session.WorkerOrigins

/-!
# The steps of a parse worker

A worker is handed on from place to place, but only a step makes it another one (`WorkerStepAux.has_step`), and it is in one place only
(`Office.Has.unique`). So the steps that a parse worker takes along a course, in rounds or at the host's hands, whatever is done
between them, are the steps of its job at the moments at which it takes them (`Course.performs`), and what is true of a job at any
moments is true of them (`Course.endures`).
-/

namespace LiveHighlight

/-- The worker that a task has in hand. One that is to be discarded takes no step any more. -/
def Task.inHand? : Task → Option Worker
  | .install _ w _ | .seat _ w _ | .conclude _ _ _ w _ | .putBack _ _ w _ => some w
  | .close _ _ c => c.returning
  | _ => none

/-- Whether a worker is in a slot, in hand, or kept under a name. -/
inductive Office.Has (o : Office) (agenda : List Task) (w : Worker) : Prop
  | seated {k : Nat} (hw : (o.scheduler.slot k).worker = some w)
  | inHand {x : Task} (hx : x ∈ agenda) (hw : x.inHand? = some w)
  | kept {name : String} (hw : o.workers.get? name = some w)

/-- The workers that can still take a step: those in slots, in hand, and kept under names. -/
def Office.staff (o : Office) (agenda : List Task) : List Worker :=
  o.scheduler.slots.filterMap (·.worker) ++ agenda.filterMap Task.inHand? ++ o.workers.values

namespace WorkerStepAux

variable {o o' : Office} {t : Task} {rest new agenda : List Task} {w v : Worker} {m : Machine} {past : List Machine}

theorem mem_staff (h : o.Has agenda w) : w ∈ o.staff agenda := by
  simp only [Office.staff, List.mem_append, List.mem_filterMap]
  cases h with
  | @seated k hw =>
    have hk : k < o.scheduler.slots.length := Scheduler.knows_of_worker hw
    refine .inl (.inl ⟨o.scheduler.slots[k], List.getElem_mem hk, ?_⟩)
    rwa [Scheduler.slot, List.getElem?_eq_getElem hk] at hw
  | inHand hx hw => exact .inl (.inr ⟨_, hx, hw⟩)
  | @kept name hw =>
    obtain ⟨before, after, he, -⟩ := List.lookup_eq_some_iff.1 hw
    have hmem : (name, w) ∈ o.workers.entries := by simp [he]
    exact .inr (List.mem_map.2 ⟨_, hmem, rfl⟩)

theorem holds_of_inHand {p : Worker → Bool} {x : Task} (h : x.inHand?.any p = true) : x.holds p = true := by
  cases x with
  | install | seat | conclude | putBack | close => exact h
  | _ => cases h

theorem countP_staff_le (o : Office) (agenda : List Task) (i : Nat) :
    (o.staff agenda).countP (Worker.is i) ≤ o.total agenda i := by
  have any (x : Option Worker) : (x.map (Worker.is i)).getD false = x.any (Worker.is i) := by cases x <;> rfl
  have hands : (agenda.filterMap Task.inHand?).countP (Worker.is i) ≤ agenda.countP (Task.holds (Worker.is i)) := by
    simp only [List.countP_filterMap, any]
    exact List.countP_mono_left fun x _ h => holds_of_inHand h
  have seats : (o.scheduler.slots.filterMap (·.worker)).countP (Worker.is i) = o.scheduler.holders (Worker.is i) := by
    simp only [List.countP_filterMap, any]
    rfl
  have kept : o.workers.values.countP (Worker.is i) = o.workers.entries.countP fun entry => entry.2.is i := List.countP_map
  rw [Office.staff, List.countP_append, List.countP_append, seats, kept, Office.total]
  omega

theorem two_le_countP {α : Type} {p : α → Bool} {l : List α} {x y : α} (hx : x ∈ l) (hy : y ∈ l) (hne : x ≠ y)
    (px : p x = true) (py : p y = true) : 2 ≤ l.countP p := by
  obtain ⟨before, after, rfl⟩ := List.append_of_mem hx
  have hy' : y ∈ before ++ after := by simpa [Ne.symm hne] using hy
  have hone : 1 ≤ (before ++ after).countP p := List.countP_pos_iff.2 ⟨y, hy', py⟩
  rw [List.countP_append] at hone ⊢
  rw [List.countP_cons_of_pos px]
  omega

end WorkerStepAux

open WorkerStepAux

/-- A worker is in one place only, so whatever is found under its number is the worker itself. -/
theorem Office.Has.unique {o : Office} {agenda : List Task} {w v : Worker} (hs : o.total agenda w.id ≤ 1)
    (h : o.Has agenda w) (h' : o.Has agenda v) (hid : v.id = w.id) : v = w := by
  by_contra hne
  have htwo := two_le_countP (p := Worker.is w.id) (mem_staff h') (mem_staff h) hne (decide_eq_true hid) (decide_eq_true rfl)
  have hle := countP_staff_le o agenda w.id
  omega

namespace WorkerStepAux

variable {o o' : Office} {t : Task} {rest new : List Task} {w : Worker} {m : Machine} {past : List Machine}

/-- A task that has a worker in hand for a slot has it in hand. -/
theorem inHand_of_lodger {k : Nat} (h : t.lodger? k = some w) : t.inHand? = some w := by
  cases t with
  | install | seat | conclude =>
    obtain ⟨-, rfl⟩ := OriginAux.of_lodger h
    rfl
  | close => exact (Option.ite_none_right_eq_some.1 h).2
  | _ => cases h

theorem inHand_of_light {x : Task} (h : x.Light o) : x.inHand? = none := by
  cases x with
  | install | seat | conclude | close | putBack => cases h
  | _ => rfl

/-- The worker that a name stands for stood under a name before, or it was made, or put back. -/
theorem kept_turn (rest : List Task) {name : String} (h : Turn o t o' new) (hw : o'.workers.get? name = some w) :
    o.Has (t :: rest) w ∨ w.id = o.hired := by
  cases h with
  | engage | rehearse =>
    rw [Directory.get?_erase] at hw
    split at hw
    · cases hw
    · exact .inl (.kept hw)
  | keep =>
    rw [Directory.get?_insert] at hw
    split at hw
    · obtain rfl := Option.some.inj hw
      exact .inr rfl
    · exact .inl (.kept hw)
  | putBack =>
    rw [Directory.get?_insert] at hw
    split at hw
    · exact .inl (.inHand (.head _) hw)
    · exact .inl (.kept hw)
  | _ => exact .inl (.kept hw)

/-- The worker that a task is left with was somewhere before, or it was made, or it has taken a step. -/
theorem inHand_turn (rest : List Task) (h : Turn o t o' new) {x : Task} (hx : x ∈ new) (hw : x.inHand? = some w) :
    o.Has (t :: rest) w ∨ w.id = o.hired ∨ (∃ r slot g outcome, x = .conclude r slot g w outcome) ∨
      ∃ name asker v, t = .call (.stepWorker name) asker ∧ o.workers.get? name = some v ∧ v.id = w.id := by
  cases h.left hx with
  | light hlight =>
    rw [inHand_of_light hlight] at hw
    cases hw
  | employed | requested =>
    obtain rfl := Option.some.inj hw
    exact .inr (.inl rfl)
  | engaged _ hkept =>
    obtain rfl := Option.some.inj hw
    exact .inl (.kept hkept)
  | rehearsed =>
    obtain rfl := Option.some.inj hw
    cases h with
    | quiet _ hn => cases hn _ hx
    | start | pause => cases hx
    | rehearse hkept later hn =>
      rcases List.mem_append.1 hx with hx | hx
      · cases hn _ hx
      · cases List.mem_singleton.1 hx
        exact .inr (.inr (.inr ⟨_, _, _, rfl, hkept, later.id.symm⟩))
  | seated => exact .inl (.inHand (.head _) hw)
  | stepped =>
    obtain rfl := Option.some.inj hw
    exact .inr (.inr (.inl ⟨_, _, _, _, rfl⟩))
  | closing =>
    obtain rfl := OriginAux.returning_conclude hw
    exact .inl (.inHand (.head _) rfl)
  | _ => cases hw

/-- A worker that is somewhere after a task was there before, or it was made, or the task was a step of it. -/
theorem has_step (run : Machine.Course past m) (ha : m.agenda = t :: rest) (alive : ¬ ({ m with agenda := rest }.run t).Crashed)
    (hw : ({ m with agenda := rest }.run t).session.office.Has ({ m with agenda := rest }.run t).agenda w) :
    m.session.office.Has m.agenda w ∨ w.id = m.session.nextWorker ∨ m.Employs w.id := by
  obtain ⟨new, hn, turn, -, beat⟩ := (run.advance ha).resolve_left alive
  rw [ha]
  cases hw with
  | @seated k hw =>
    rcases OriginAux.worker_turn turn hw with hw | hlodger
    · exact .inl (.seated hw)
    · exact .inl (.inHand (.head _) (inHand_of_lodger hlodger))
  | @inHand x hx hw =>
    rw [hn] at hx
    rcases List.mem_append.1 hx with hx | hx
    · rcases inHand_turn rest turn hx hw with
        hhas | hid | ⟨r, slot, g, outcome, rfl⟩ | ⟨name, asker, v, rfl, hkept, hid⟩
      · exact .inl hhas
      · exact .inr (.inl hid)
      · cases beat _ hx rfl with
        | stepped hr hc later =>
          exact .inr (.inr (.inl ⟨_, _, Machine.begins_iff.2 ⟨_, _, _, _, ha, hr, hc⟩, later.id.symm⟩))
      · exact .inr (.inr (.inr ⟨name, asker, rest, v, ha, hkept, hid⟩))
    · exact .inl (.inHand (.tail _ hx) hw)
  | kept hw =>
    rcases kept_turn rest turn hw with hhas | hid
    · exact .inl hhas
    · exact .inr (.inl hid)

end WorkerStepAux

/-- Whether a worker was made, and no other one is anywhere under its number. -/
structure Machine.Tracks (m : Machine) (w : Worker) : Prop where
  made : w.id < m.session.nextWorker
  only : ∀ v, m.session.office.Has m.agenda v → v.id = w.id → v = w

/-- What a parse job finds where a machine has come to. -/
def Machine.moment (m : Machine) (d : Nat) (token : CancelToken) : Moment :=
  ⟨m.session.isCancelled token, (m.session.document d).buffer⟩

/-- Whether a task ends a step of a worker that came to an outcome. -/
def Task.Ends (w : Worker) (outcome : Outcome) (x : Task) : Prop :=
  (∃ r slot g, x = .conclude r slot g w outcome) ∨ ∃ asker name, x = .putBack asker name w outcome

/-- Whether the first task is done as a step of a parse job: the document gets the lines that the step leaves, what it has to tell
is told next, and then the worker is handed on, at work on the job as the step leaves it, with an outcome that is no fault. -/
structure Machine.Performs (m : Machine) (i d : Nat) (token : CancelToken) (step : JobStep) : Prop where
  documents : m.step.session.documents = (m.session.setBuffer d step.buffer).documents
  agenda : ∃ x rest, m.step.agenda = step.tells d ++ x :: rest ∧ x.Ends ⟨i, .parsing d step.job token⟩ (.ok step.next) ∧
    m.agenda.tail = rest

/-- Whether the first task makes a parse worker for a document, a grammar and some options, with a token: the host opens one, or a
handler asks for one. -/
inductive Machine.Opens (m : Machine) (d : Nat) (g : Grammar) (o : ParseOptions) : CancelToken → Prop where
  | host {doc worker : String} {named : Option String} {asker : Asker} {rest : List Task}
      (ha : m.agenda = .call (.onDocument doc (.openWorker worker (.ok g) o named)) asker :: rest)
      (hdoc : m.session.names.documents.get? doc = some d) :
      m.Opens d g o ((named.bind m.session.names.tokens.get?).getD ⟨[m.session.nextToken]⟩)
  | handler {h : Nat} {hd : Handler} {rest : List Task} (ha : m.agenda = .requestParse h :: rest)
      (hh : m.session.handlers[h]? = some hd) (hdocument : hd.document = d) (hgrammar : hd.grammar = g) (hoptions : hd.options = o)
      (live : m.session.isCancelled hd.token = false) : m.Opens d g o hd.token

namespace WorkerStepAux

variable {t : Task} {rest : List Task} {m : Machine} {past : List Machine} {i d : Nat} {token : CancelToken} {job : ParseJob}

theorem workers_openWorker (m : Machine) (d : Nat) (worker : String) (g : Grammar) (o : ParseOptions) (named : Option String) :
    (m.openWorker d worker g o named).session.names.workers.get? worker =
        some ⟨m.session.nextWorker, .parsing d (.start g (m.session.document d).buffer o)
          ((named.bind m.session.names.tokens.get?).getD ⟨[m.session.nextToken]⟩)⟩ ∧
      (m.openWorker d worker g o named).session.nextWorker = m.session.nextWorker + 1 := by
  unfold Machine.openWorker
  cases named.bind m.session.names.tokens.get? with
  | none => exact ⟨by simp [Machine.rename, Machine.put, Directory.get?_insert]; rfl, rfl⟩
  | some token => exact ⟨by simp [Machine.rename, Machine.put, Directory.get?_insert]; rfl, rfl⟩

/-- A worker that is made is somewhere. -/
theorem has_opened {g : Grammar} {o : ParseOptions} (opens : m.Opens d g o token) :
    m.step.session.office.Has m.step.agenda
        ⟨m.session.nextWorker, .parsing d (.start g (m.session.document d).buffer o) token⟩ ∧
      m.session.nextWorker < m.step.session.nextWorker := by
  cases opens with
  | @host doc worker named asker rest ha hdoc =>
    obtain ⟨hkept, hnext⟩ := workers_openWorker { m with agenda := rest } d worker g o named
    rw [Machine.step_eq ha]
    simp only [Machine.run, Machine.perform, Machine.find, hdoc, Machine.onDocument, Machine.withGrammar]
    cases asker <;> exact ⟨.kept hkept, Nat.lt_of_lt_of_eq (Nat.lt_succ_self _) hnext.symm⟩
  | handler ha hh hdocument hgrammar hoptions live =>
    subst hdocument hgrammar hoptions
    rw [Machine.step_eq ha]
    simp only [Machine.run, Machine.requestParse, hh, live]
    exact ⟨.inHand (.tail _ (.head _)) rfl, Nat.lt_succ_self _⟩

/-- A machine that makes a worker leaves one that is tracked. -/
theorem tracks_opened {g : Grammar} {o : ParseOptions} (run : Machine.Course past m.step) (alive : ¬ m.step.Crashed)
    (opens : m.Opens d g o token) :
    m.step.Tracks ⟨m.session.nextWorker, .parsing d (.start g (m.session.document d).buffer o) token⟩ := by
  obtain ⟨has, made⟩ := has_opened opens
  exact ⟨made, fun v hv hid => has.unique ((run.single.resolve_left alive) _) hv hid⟩

/-- A task that is no step of a worker leaves it what it is. -/
theorem tracks_step {w : Worker} (run : Machine.Course past m) (ha : m.agenda = t :: rest) (alive : ¬ m.step.Crashed)
    (tracks : m.Tracks w) (idle : ¬ m.Employs w.id) : m.step.Tracks w := by
  rw [Machine.step_eq ha] at alive ⊢
  obtain ⟨new, -, turn, -, -⟩ := (run.advance ha).resolve_left alive
  refine ⟨Nat.lt_of_lt_of_le tracks.made (AccountingAux.hired_turn turn).1, fun v hv hid => ?_⟩
  rcases has_step run ha alive hv with hv | hnew | hemploys
  · exact tracks.only v hv hid
  · exact absurd (hid.symm.trans hnew) (Nat.ne_of_lt tracks.made)
  · exact absurd (hid ▸ hemploys) idle

/-- What a step of a parse worker does at the host's hands. -/
theorem step_rehearsed {name : String} {asker : Asker} (ha : m.agenda = .call (.stepWorker name) asker :: rest)
    (hw : m.session.names.workers.get? name = some ⟨i, .parsing d job token⟩) :
    m.step.session.documents =
        (m.session.setBuffer d (job.step (m.session.isCancelled token) (m.session.document d).buffer).buffer).documents ∧
      m.step.agenda = (job.step (m.session.isCancelled token) (m.session.document d).buffer).tells d ++
        .putBack asker name ⟨i, .parsing d (job.step (m.session.isCancelled token) (m.session.document d).buffer).job token⟩
          (.ok (job.step (m.session.isCancelled token) (m.session.document d).buffer).next) :: rest ∧
      m.step.session.nextWorker = m.session.nextWorker := by
  rw [Machine.step_eq ha]
  simp only [Machine.run, Machine.perform, Machine.find, hw, Machine.work, JobStep.tells]
  refine ⟨rfl, ?_, rfl⟩
  simp only [Machine.push, Machine.put, Machine.rename, List.append_assoc, List.singleton_append]
  rfl

/-- A step of a parse worker is a step of its job, and leaves it at work on what that leaves. -/
theorem performs_step (tracks : m.Tracks ⟨i, .parsing d job token⟩) (employs : m.Employs i) :
    m.Performs i d token (job.step (m.moment d token).cancelled (m.moment d token).buffer) ∧
      m.step.session.nextWorker = m.session.nextWorker := by
  rcases employs with ⟨k, w, begins, hid⟩ | ⟨name, asker, rest, w, ha, hkept, hid⟩
  · obtain ⟨r, due, rest, g, ha, hr, hc⟩ := Machine.begins_iff.1 begins
    obtain rfl := tracks.only w (.seated (Scheduler.claim_step hc).2.1) hid
    have hagenda := FreshnessAux.agenda_begun ha hr hc
    have hsession := congrArg Machine.session (FreshnessAux.step_begun ha hr hc)
    rw [List.append_assoc] at hagenda
    exact ⟨⟨by rw [hsession]; rfl, _, rest, hagenda, .inl ⟨_, _, _, rfl⟩, by rw [ha]; rfl⟩, by rw [hsession]; rfl⟩
  · obtain rfl := tracks.only w (.kept hkept) hid
    obtain ⟨hdocuments, hagenda, hnext⟩ := step_rehearsed ha hkept
    exact ⟨⟨hdocuments, _, rest, hagenda, .inr ⟨_, _, rfl⟩, by rw [ha]; rfl⟩, hnext⟩

/-- After a step of a parse worker it is tracked at work on what the step leaves. -/
theorem tracks_performed {step : JobStep} (run : Machine.Course past m.step) (alive : ¬ m.step.Crashed)
    (made : i < m.step.session.nextWorker) (performs : m.Performs i d token step) :
    m.step.Tracks ⟨i, .parsing d step.job token⟩ := by
  obtain ⟨x, rest, hagenda, hends, -⟩ := performs.agenda
  have has : m.step.session.office.Has m.step.agenda ⟨i, .parsing d step.job token⟩ := by
    refine .inHand (x := x) (by simp [hagenda]) ?_
    rcases hends with ⟨r, slot, g, rfl⟩ | ⟨asker, name, rfl⟩ <;> rfl
  exact ⟨made, fun v hv hid => has.unique ((run.single.resolve_left alive) _) hv hid⟩

end WorkerStepAux

namespace Machine

/-- The number of the worker that takes a step by the first task. -/
def employee? (m : Machine) : Option Nat :=
  match m.agenda with
  | .call (.stepWorker name) _ :: _ => (m.session.names.workers.get? name).map (·.id)
  | _ => m.begun?.map (·.2.id)

theorem employs_iff {m : Machine} {i : Nat} : m.Employs i ↔ m.employee? = some i := by
  constructor
  · rintro (⟨k, w, begins, rfl⟩ | ⟨name, asker, rest, w, ha, hw, rfl⟩)
    · obtain ⟨r, due, rest, g, ha, -⟩ := begins_iff.1 begins
      simp only [employee?, ha]
      rw [show m.begun? = some (k, w) from begins]
      rfl
    · simp [employee?, ha, hw]
  · intro h
    unfold employee? at h
    split at h
    · next name asker rest ha =>
      obtain ⟨w, hw, rfl⟩ := Option.map_eq_some_iff.1 h
      exact .inr ⟨name, asker, rest, w, ha, hw, rfl⟩
    · obtain ⟨⟨k, w⟩, begins, rfl⟩ := Option.map_eq_some_iff.1 h
      exact .inl ⟨k, w, begins, rfl⟩

instance (m : Machine) (i : Nat) : Decidable (m.Employs i) := decidable_of_iff _ employs_iff.symm

/-- The machines, of some that were passed, that have a worker take a step, the first one first. -/
def stints (i : Nat) (passed : List Machine) : List Machine := (passed.filter fun q => q.Employs i).reverse

/-- What a parse worker has found at its steps. -/
def moments (i d : Nat) (token : CancelToken) (passed : List Machine) : List Moment := (stints i passed).map (·.moment d token)

theorem stints_cons_of_employs {q : Machine} {i : Nat} (h : q.Employs i) (passed : List Machine) :
    stints i (q :: passed) = stints i passed ++ [q] := by
  rw [stints, List.filter_cons_of_pos (by simpa using h), List.reverse_cons]
  rfl

theorem stints_cons_of_not_employs {q : Machine} {i : Nat} (h : ¬ q.Employs i) (passed : List Machine) :
    stints i (q :: passed) = stints i passed := by
  rw [stints, List.filter_cons_of_neg (by simpa using h)]
  rfl

theorem Opens.agenda {m : Machine} {d : Nat} {g : Grammar} {o : ParseOptions} {token : CancelToken} (h : m.Opens d g o token) :
    m.agenda ≠ [] := by
  cases h with
  | host ha | handler ha => simp [ha]

theorem Employs.agenda {m : Machine} {i : Nat} (h : m.Employs i) : m.agenda ≠ [] := by
  rcases h with ⟨k, w, begins, -⟩ | ⟨name, asker, rest, w, ha, -⟩
  · obtain ⟨r, due, rest, g, ha, -⟩ := begins_iff.1 begins
    simp [ha]
  · simp [ha]

/-- Asking leaves a worker what it is. -/
theorem Tracks.ask {m : Machine} {w : Worker} (h : m.Tracks w) (c : Call) : (Machine.ask m.session c).Tracks w := by
  refine ⟨h.made, fun v hv hid => ?_⟩
  cases hv with
  | seated hv => exact h.only v (.seated hv) hid
  | inHand hx hv =>
    obtain rfl := List.mem_singleton.1 hx
    cases hv
  | kept hv => exact h.only v (.kept hv) hid

namespace Course

variable {past later earlier : List Machine} {p q m : Machine} {d : Nat} {g : Grammar} {o : ParseOptions} {token : CancelToken}

/-- The steps of a parse worker along a course are those of its job, at the moments at which it takes them. -/
theorem performs (run : Course (later ++ p :: earlier) m) (opens : p.Opens d g o token) :
    (m.Crashed ∨ m.Tracks ⟨p.session.nextWorker, .parsing d ((ParseJob.start g (p.session.document d).buffer o).after
        (moments p.session.nextWorker d token later)) token⟩) ∧
      List.Forall₂ (fun q step => q.Performs p.session.nextWorker d token step) (stints p.session.nextWorker later)
        ((ParseJob.start g (p.session.document d).buffer o).steps (moments p.session.nextWorker d token later)) := by
  induction later generalizing m with
  | nil =>
    refine ⟨?_, .nil⟩
    rcases run.next_cases with ⟨idle, -⟩ | ⟨-, rfl⟩
    · exact absurd idle.1 opens.agenda
    · exact (Classical.em _).imp_right fun alive => tracks_opened run alive opens
  | cons q later ih =>
    obtain ⟨tracked, done⟩ := ih run.previous
    rcases run.next_cases with ⟨idle, c, rfl⟩ | ⟨⟨t, rest, ha⟩, rfl⟩
    · have unemployed : ¬ q.Employs p.session.nextWorker := fun h => h.agenda idle.1
      rw [moments, stints_cons_of_not_employs unemployed]
      exact ⟨.inr ((tracked.resolve_left idle.not_crashed).ask c), done⟩
    · have tracks := tracked.resolve_left (not_crashed_of_agenda ha)
      by_cases employs : q.Employs p.session.nextWorker
      · obtain ⟨performs, hnext⟩ := performs_step tracks employs
        rw [moments, stints_cons_of_employs employs, List.map_append, ParseJob.EnduranceAux.steps_append]
        refine ⟨(Classical.em _).imp_right fun alive => ?_, List.rel_append done (.cons performs .nil)⟩
        have later' := tracks_performed run alive (hnext ▸ tracks.made) performs
        rwa [ParseJob.after, List.foldl_append]
      · rw [moments, stints_cons_of_not_employs employs]
        exact ⟨(Classical.em _).imp_right fun alive => tracks_step run.previous ha alive tracks employs, done⟩

/-- Whatever is done to its document between its steps, a parse job for a grammar that was built comes to its end after some number of
steps. It complains at most once, and once it can write no more it announces the end, once and only once, unless it is cancelled; then
it does nothing any more. The steps that a parse worker takes along a course, none of which comes to a fault, are steps of such a job,
whoever makes it, has it take them, edits the document or cancels its token. -/
theorem endures {spec : GrammarSpec} {registry : TerminalRegistry} {g : Grammar} (hg : spec.build registry = .ok g) :
    (∀ (b : Buffer) (o : ParseOptions), ∃ bound, ∀ ts : List Moment,
      ParseJob.Endures bound ts ((ParseJob.start g b o).steps ts)) ∧
    ∀ (earlier : List Machine) (p : Machine) (d : Nat) (o : ParseOptions) (token : CancelToken), p.Opens d g o token →
      ∃ bound, ∀ (later : List Machine) (m : Machine), Course (later ++ p :: earlier) m →
        List.Forall₂ (fun q step => q.Performs p.session.nextWorker d token step) (stints p.session.nextWorker later)
            ((ParseJob.start g (p.session.document d).buffer o).steps (moments p.session.nextWorker d token later)) ∧
          ParseJob.Endures bound (moments p.session.nextWorker d token later)
            ((ParseJob.start g (p.session.document d).buffer o).steps (moments p.session.nextWorker d token later)) := by
  have closed := closed_of_build hg
  refine ⟨fun b o => ParseJob.exists_endures closed b o, fun earlier p d o token opens => ?_⟩
  obtain ⟨bound, hbound⟩ := ParseJob.exists_endures closed (p.session.document d).buffer o
  exact ⟨bound, fun later m run => ⟨(run.performs opens).2, hbound _⟩⟩

end Course

end Machine

namespace WorkerStepAux

/-- A session in which the host opens a parse worker for a document. -/
def opening : List Machine × Machine :=
  Machine.talk 8 [.document "d" "[\n]" none] ([], ⟨.new .standard, [], none⟩)

/-- The host opens a parse worker. -/
def hiring : Machine :=
  Machine.ask opening.2.session (.onDocument "d" (.openWorker "w" (.ok brackets) .standard none))

/-- The job of that worker. -/
def hiredJob : ParseJob := .start brackets (hiring.session.document 0).buffer .standard

/-- The worker is stepped on after the document has lost a line. -/
def shrinking : List Machine × Machine :=
  Machine.talk 16
    [.stepWorker "w", .onDocument "d" (.edit (.removeLine 1)), .stepWorker "w", .stepWorker "w", .stepWorker "w"]
    ([], hiring.settle 8)

end WorkerStepAux

namespace Machine.Course

/-- The worker clears the annotations, its parse is ended by the line that is gone, and it announces the end all the same. -/
theorem endures_shrunk : bracketSpec.build .standard = .ok brackets ∧ hiring.Opens 0 brackets .standard ⟨[0]⟩ ∧
    ∃ later earlier bound, Course (later ++ hiring :: earlier) shrinking.2 ∧
      List.Forall₂ (fun q step => q.Performs 0 0 ⟨[0]⟩ step) (stints 0 later) (hiredJob.steps (moments 0 0 ⟨[0]⟩ later)) ∧
      ParseJob.Endures bound (moments 0 0 ⟨[0]⟩ later) (hiredJob.steps (moments 0 0 ⟨[0]⟩ later)) ∧
      (hiredJob.steps (moments 0 0 ⟨[0]⟩ later)).map (fun step => (step.complaint.isSome, step.announces, step.next)) =
        [(false, false, .again 0), (true, false, .again 0), (false, true, .finished), (false, false, .finished)] := by
  have hg : bracketSpec.build .standard = .ok brackets := by decide +kernel
  have opened : Course opening.1 opening.2 := (Course.new .standard).talk 8 _
  have idle : opening.2.Idle := by decide +kernel
  have named : hiring.session.names.documents.get? "d" = some 0 := by decide +kernel
  have token : hiring.session.nextToken = 0 := by decide +kernel
  have first : hiring.session.nextWorker = 0 := by decide +kernel
  have opens : hiring.Opens 0 brackets .standard ⟨[0]⟩ := by
    have ha : hiring.agenda = [.call (.onDocument "d" (.openWorker "w" (.ok brackets) .standard none)) .host] := rfl
    simpa [token] using Opens.host ha named
  have hired : Course (hiring.step.passed 7 [] ++ hiring :: opening.2 :: opening.1) (hiring.settle 8) :=
    (opened.ask _ idle).settle_succ 7 rfl
  have run : Course ((shrinking.1 ++ hiring.step.passed 7 []) ++ hiring :: opening.2 :: opening.1) shrinking.2 := by
    rw [List.append_assoc]
    exact hired.talked 16 _
  obtain ⟨bound, hbound⟩ := (endures hg).2 _ _ _ _ _ opens
  obtain ⟨performed, survives⟩ := hbound _ _ run
  rw [first] at performed survives
  exact ⟨hg, opens, _, _, bound, run, performed, survives, by decide +kernel⟩

end Machine.Course

end LiveHighlight
