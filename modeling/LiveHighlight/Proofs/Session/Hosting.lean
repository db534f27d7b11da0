import LiveHighlight.Proofs.Session.Fairness
import LiveHighlight.Proofs.Session.Finality
import LiveHighlight.Proofs.Session.Retirement

/-!
# The parse that a slot hosts

A parse worker that a handler has queued is about to be put into the handler's slot, is in the slot, or goes back to it after a
step (`Hosts`). A task that neither stops the slot nor begins a step there leaves it so (`HostingAux.hosts_step`), and the steps
themselves go on in silence until the one that announces that the annotations are renewed, which is the last
(`Course.hosts_or_raises`). A worker that was taken out of its slot to be discarded, or whose last step is under way, takes no
step any more.
-/

namespace LiveHighlight

/-- Whether a slot hosts a worker: the worker is about to be put in, is in the slot, or goes back to it after a step. -/
inductive Hosts (k : Nat) (w : Worker) (s : Session) (agenda : List Task) : Prop where
  | coming {delay : Nat} (hx : .install k w delay ∈ agenda)
  | seated (hw : (s.scheduler.slot k).worker = some w)
  | stepped {r : Round} {delay : Nat} (ha : agenda = [.conclude r k (s.scheduler.slot k).generation w (.ok (.again delay))])

/-- Whether the first task begins a step in which the worker with a number announces that the annotations are renewed. -/
def Machine.Raises (m : Machine) (i : Nat) : Prop :=
  ∃ k w d, m.Begins k w ∧ w.id = i ∧ .raise d .formatted ∈ m.step.agenda

/-- Whether a worker takes no step any more: it is at its end, or its last step is under way. -/
def Spent (i : Nat) (o : Office) (agenda : List Task) : Prop :=
  Doomed i o agenda ∨ ∃ r k g w, .conclude r k g w (.ok .finished) ∈ agenda ∧ w.id = i

namespace HostingAux

variable {s s' : Session} {o o' : Office} {t : Task} {rest new : List Task} {k i : Nat} {w w' : Worker} {m : Machine}

/-- A task that neither stops the slot nor begins a step there leaves a worker hosted. -/
theorem hosts_step (hc : Calmly k s.office (t :: rest)) (hh : Hosts k w s (t :: rest)) (turn : Turn s.office t s'.office new)
    (shift : Shift s t s'.scheduler) (idle : ∀ r due g, t = .round r → r.due = k :: due →
      (s.scheduler.claim k r.now).2 ≠ .step w g) :
    Hosts k w s' (new ++ rest) ∨ t = .stop k ∧ (s.scheduler.slot k).worker = some w := by
  have hhead (hs : t.settles k = true) := hc.kept.stage.head hs
  cases hh with
  | @coming delay hx =>
    rcases List.mem_cons.1 hx with rfl | hx
    · have hk : s.scheduler.Knows k := hc.known.tasks _ (.head _) k rfl
      rcases hhead (by simp [Task.settles]) with ⟨w', delay', -, hw⟩ | ⟨r, c, he, -⟩
      · generalize ho : s'.office = o' at turn
        cases turn with
        | quiet hq => cases hq
        | @install _ _ at_ =>
          have hs : s'.scheduler = s.scheduler.install k w at_ := congrArg Office.scheduler ho
          refine .inl (.seated ?_)
          rw [hs]
          exact congrArg (fun v => v.1.worker) (Scheduler.view_install hk w at_)
        | evict _ hold => cases hw.symm.trans hold
      · cases he
    · exact .inl (.coming (List.mem_append_right _ hx))
  | seated hw =>
    have hk : s.scheduler.Knows k := Scheduler.knows_of_worker hw
    have hat := shift.shiftAt hk
    have hseat (v : Slot Worker × Nat) (hv : s'.scheduler.view k = v) (hvw : v.1.worker = some w) :
        Hosts k w s' (new ++ rest) := by
      subst hv
      exact .seated hvw
    generalize hv : s'.scheduler.view k = v at hat
    generalize s'.scheduler.nextSeq = next at hat
    cases hat with
    | same | start | pause | finish | fail | delist => exact .inl (hseat _ hv hw)
    | stop => exact .inr ⟨rfl, hw⟩
    | install _ hnone | vacate _ _ hnone | again hnone => cases hw.symm.trans hnone
    | lend hr hd hw' =>
      obtain rfl := Option.some.inj (hw'.symm.trans hw)
      exact absurd (Scheduler.claim_of_due hd hw) (idle _ _ _ rfl hr)
    | evict =>
      rcases hhead (by simp [Task.settles]) with ⟨w', delay', -, hnone⟩ | ⟨r, c, he, -⟩
      · cases hw.symm.trans hnone
      · cases he
    | seat => rcases hhead (by simp [Task.settles]) with ⟨w', delay', he, -⟩ | ⟨r, c, he, -⟩ <;> cases he
    | restore hret =>
      rcases hhead (by simp [Task.settles]) with ⟨w', delay', he, -⟩ | ⟨r, c, he, hnone⟩
      · cases he
      · cases he
        cases hret.symm.trans hnone
    | takeOver => cases hw.symm.trans ((hc.kept.lent _ _ _ _ (.head _)).2.2 rfl).2
  | stepped ha =>
    obtain ⟨rfl, rfl⟩ := List.cons.inj ha
    have hk : s.scheduler.Knows k := hc.known.tasks _ (.head _) k rfl
    have hnone : (s.scheduler.slot k).worker = none := ((hc.kept.lent _ _ _ _ (.head _)).2.2 rfl).2
    generalize ho : s'.office = o' at turn
    cases turn with
    | quiet hq => cases hq
    | @conclude _ _ _ now =>
      have hs : s'.scheduler = _ := congrArg Office.scheduler ho
      refine .inl (.seated ?_)
      rw [hs]
      exact congrArg (fun v => v.1.worker) (Scheduler.view_conclude_again hk w _ now hnone)

/-- A hosted worker is in a slot or in hand. -/
theorem one_le_hosts (hh : Hosts k w m.session m.agenda) :
    1 ≤ m.session.scheduler.holders (Worker.is w.id) + m.agenda.countP (Task.holds (Worker.is w.id)) := by
  cases hh with
  | coming hx =>
    exact Nat.le_add_left_of_le (List.countP_pos_iff.2 ⟨_, hx, by simp [Task.holds, Worker.is]⟩)
  | seated hw => exact Nat.le_add_right_of_le (AccountingAux.one_le_holders ⟨w, hw, rfl⟩)
  | stepped ha =>
    rw [ha]
    exact Nat.le_add_left_of_le (by simp [Task.holds, Worker.is])

/-- A hosted worker begins no step but one out of its slot. -/
theorem begins_of_hosts {j : Nat} (hs : ∀ i, m.session.office.total m.agenda i ≤ 1) (hh : Hosts k w m.session m.agenda)
    (begins : m.Begins j w') (hid : w'.id = w.id) : j = k ∧ w' = w := by
  obtain ⟨r, due, rest, g, ha, -, hclaim⟩ := Machine.begins_iff.1 begins
  have hheld : m.Holds j w.id := ⟨w', (Scheduler.claim_step hclaim).2.1, hid⟩
  have htotal := hs w.id
  have hone : 1 ≤ m.session.office.scheduler.holders (Worker.is w.id) := AccountingAux.one_le_holders hheld
  simp only [Office.total] at htotal
  cases hh with
  | coming hx =>
    have hcount : 1 ≤ m.agenda.countP (Task.holds (Worker.is w.id)) :=
      List.countP_pos_iff.2 ⟨_, hx, by simp [Task.holds, Worker.is]⟩
    omega
  | seated hw =>
    by_cases hj : j = k
    · subst hj
      exact ⟨rfl, Option.some.inj ((Scheduler.claim_step hclaim).2.1.symm.trans hw)⟩
    · have htwo : 2 ≤ m.session.office.scheduler.holders (Worker.is w.id) := AccountingAux.two_le_holders ⟨w, hw, rfl⟩ hheld hj
      omega
  | stepped hag =>
    rw [ha] at hag
    cases hag

/-- A hosted worker is not employed elsewhere. -/
theorem begins_of_employs (hs : ∀ i, m.session.office.total m.agenda i ≤ 1) (hh : Hosts k w m.session m.agenda)
    (employs : m.Employs w.id) : m.Begins k w := by
  rcases employs with ⟨j, w', begins, hid⟩ | ⟨name, asker, rest, w', ha, hn, hid⟩
  · obtain ⟨rfl, rfl⟩ := begins_of_hosts hs hh begins hid
    exact begins
  · -- a worker that the host keeps under a name is in no slot and in nobody's hands
    have hkept := AccountingAux.countP_erase (Worker.is w.id) (show m.session.office.workers.get? name = some w' from hn)
    have htotal := hs w.id
    have hone : 1 ≤ m.session.office.scheduler.holders (Worker.is w.id) + m.agenda.countP (Task.holds (Worker.is w.id)) :=
      one_le_hosts hh
    simp only [Worker.is, hid, decide_true, Bool.toNat_true] at hkept
    simp only [Office.total, Worker.is] at htotal hone
    omega

/-- A hosted worker is in its slot where neither a change of the slot nor a step is under way. -/
theorem worker_of_hosts {agenda : List Task} (hc : Calmly k s.office agenda) (hh : Hosts k w s agenda)
    (head : ∀ t, agenda.head? = some t → t ≠ .stop k ∧ t.isSilent = false ∧ t.settles k = false ∧ t.isRound = false) :
    (s.scheduler.slot k).worker = some w := by
  cases hh with
  | coming hx =>
    cases agenda with
    | nil => cases hx
    | cons t rest =>
      obtain ⟨hstop, hsilent, hsettles, -⟩ := head t rfl
      have hsteady := hc.kept.stage.steady_of_head hstop hsilent hsettles _ hx
      simp [Task.settles] at hsteady
  | seated hw => exact hw
  | stepped ha =>
    have hround := (head _ (congrArg List.head? ha)).2.2.2
    cases hround

/-- Code of the host finds a hosted worker in its slot. -/
theorem worker_of_visible (hc : Calmly k m.session.office m.agenda) (hh : Hosts k w m.session m.agenda) (seen : m.Visible) :
    (m.session.scheduler.slot k).worker = some w := by
  refine worker_of_hosts hc hh ?_
  intro t ht
  obtain ⟨rest, ha⟩ := List.head?_eq_some_iff.1 ht
  obtain ⟨hstop, hsilent, hsettles, hround, -⟩ := AccountingAux.head_of_visible ha seen
  exact ⟨hstop k, hsilent, hsettles k, hround⟩

/-! ### Steps of a parse -/

/-- The session when a parse worker has been taken out of its slot for a step. -/
theorem session_begun {r : Round} {slot g d : Nat} {due : List Nat} {job : ParseJob} {token : CancelToken}
    (ha : m.agenda = .round r :: rest) (hr : r.due = slot :: due)
    (hc : (m.session.scheduler.claim slot r.now).2 = .step ⟨i, .parsing d job token⟩ g) :
    m.step.session =
      (({ m.session with scheduler := (m.session.scheduler.claim slot r.now).1 }).note (.parsed i job.phase)).setBuffer d
        (job.step (m.session.isCancelled token) (m.session.document d).buffer).buffer := by
  rw [FreshnessAux.step_begun ha hr hc]

/-- Putting back the lines that a document has changes no lines. -/
theorem buffer_unchanged (s : Session) (d id : Nat) :
    ((s.setBuffer d (s.document d).buffer).document id).buffer = (s.document id).buffer := by
  simp only [Session.setBuffer, Session.updateDocument, Session.document, List.getElem?_modify]
  by_cases hd : d = id
  · subst hd
    cases s.documents[d]? <;> simp
  · cases s.documents[id]? <;> simp [hd]

/-! ### The end of a worker -/

/-- What a slot holds is discarded when the slot is stopped. -/
theorem discarded_stop (hw : (o.scheduler.slot k).worker = some w) (turn : Turn o (.stop k) o' new) :
    Discarded w.id o' (new ++ rest) := by
  cases turn with
  | quiet hq => cases hq
  | stop =>
    have hs : (o.scheduler.stop k).2 = some w := Scheduler.stop_snd.trans hw
    exact .inr ⟨w, by simp [hs], rfl⟩

theorem spent_step (hs : Spent i s.office (t :: rest)) (turn : Turn s.office t s'.office new)
    (shift : Shift s t s'.scheduler) : Spent i s'.office (new ++ rest) := by
  rcases hs with hd | ⟨r, k, g, w, hx, hw⟩
  · exact .inl (FinalityAux.doomed_step hd turn shift)
  · rcases List.mem_cons.1 hx with rfl | hx
    · -- the worker is discarded, whether it has lost its place or not
      refine .inl (.inr (.inl ⟨w, List.mem_append_left _ ?_, hw⟩))
      generalize s'.office = o' at turn
      cases turn with
      | quiet hq => cases hq
      | conclude =>
        unfold Scheduler.conclude
        dsimp only
        split <;> simp
    · exact .inr ⟨r, k, g, w, List.mem_append_right _ hx, hw⟩

/-- A worker whose last step is under way is in no slot and kept under no name, so it begins no step. -/
theorem not_employs_of_spent (hs : ∀ i, m.session.office.total m.agenda i ≤ 1) (he : Spent i m.session.office m.agenda) :
    ¬ m.Employs i := by
  rcases he with hd | ⟨r, k, g, w, hx, rfl⟩
  · exact FinalityAux.not_employs_of_doomed hs hd
  · refine FinalityAux.not_employs_of_away (hs w.id) (Nat.le_add_right_of_le ?_)
    exact List.countP_pos_iff.2 ⟨_, hx, by simp [Task.holds, Worker.is]⟩

end HostingAux

open HostingAux

namespace Machine

namespace Course

variable {past later earlier : List Machine} {m p : Machine} {t : Task} {rest : List Task} {h i : Nat} {hd : Handler}

/-- A step of a handler's parse leaves it on its way in silence, or announces that the annotations are renewed, changes no lines
and is the last. -/
theorem hosts_or_raises (run : Course past m) (quiet : ∀ p ∈ past, ¬ Reenters p.agenda)
    (held : m.session.handlers[h]? = some hd) (live : hd.isDisposed = false) (closed : hd.grammar.Closed) {job : ParseJob}
    (begins : m.Begins hd.slot ⟨i, .parsing hd.document job hd.token⟩) (hp : job.phase ≠ .done) :
    ((∀ d, .raise d .formatted ∉ m.step.agenda) ∧ ∃ job' : ParseJob, job'.sink = job.sink ∧ job'.phase ≠ .done ∧
        Hosts hd.slot ⟨i, .parsing hd.document job' hd.token⟩ m.step.session m.step.agenda) ∨
      .raise hd.document .formatted ∈ m.step.agenda ∧ Spent i m.step.session.office m.step.agenda ∧
        ∀ d, (m.step.session.document d).buffer = (m.session.document d).buffer := by
  obtain ⟨r, due, rest, g, ha, hr, hc⟩ := begins_iff.1 begins
  obtain ⟨regular, handlers⟩ := (run.fresh quiet).resolve_left (not_crashed_of_agenda ha)
  obtain ⟨station, fresh⟩ := handlers h hd held live closed
  rw [ha] at regular station fresh
  obtain rfl := regular.orderly.alone rfl
  obtain ⟨-, i', job', hw, hreads⟩ := FreshnessAux.parses_of_round fresh (Scheduler.claim_step hc).2.1
  cases hw
  have safe := LiveHandlerAux.not_isCancelled regular.numbered held station.attends
  have silent := (hreads.succeeds closed (regular.lined _ station.attends.ranged).texts_ne_nil rfl).silent
  have hagenda := FreshnessAux.agenda_begun ha hr hc
  have hsession := session_begun ha hr hc
  simp only [safe, JobStep.tells, silent, Option.toList_none, List.map_nil, List.nil_append, List.append_nil] at hagenda
  rw [safe] at hsession
  obtain ⟨-, -, rfl⟩ := Scheduler.claim_step hc
  rcases ParseJob.step_cases hp (m.session.document hd.document).buffer with ⟨hmute, hphase, delay, hnext⟩ | ⟨hloud, hnext, hsame⟩
  · rw [hmute, hnext] at hagenda
    have hone : m.step.agenda = [_] := hagenda
    have hg : (m.step.session.scheduler.slot hd.slot).generation = (m.session.scheduler.slot hd.slot).generation := by
      rw [hsession]
      exact Scheduler.generation_claim r.now
    rw [← hg] at hagenda
    exact .inl ⟨by simp [hone], _, ParseJob.sink_step _ _ _, hphase, .stepped hagenda⟩
  · rw [hloud, hnext] at hagenda
    refine .inr ⟨by simp [hagenda], .inr ⟨_, _, _, _, by rw [hagenda]; exact .tail _ (.head _), rfl⟩, ?_⟩
    intro d
    rw [hsession, hsame]
    exact buffer_unchanged _ _ _

/-- A worker that is discarded, or is about to be, is so from then on. -/
theorem discarded (run : Course (later ++ p :: earlier) m) (ha : p.agenda = t :: rest)
    (start : Discarded i ({ p with agenda := rest }.run t).session.office ({ p with agenda := rest }.run t).agenda) :
    m.Crashed ∨ Discarded i m.session.office m.agenda := by
  refine run.after (P := fun _ => True) (I := fun q => q.Crashed ∨ Discarded i q.session.office q.agenda) ha (by simp)
    (.inr start) ?_ ?_
  · intro past q c _ _ hq idle
    rcases hq.resolve_left idle.not_crashed with hq | ⟨w, hx, -⟩
    · exact .inr (.inl hq)
    · rw [idle.1] at hx
      cases hx
  · intro past q t' rest' run' _ hq ha'
    have hq := hq.resolve_left (not_crashed_of_agenda ha')
    rw [ha'] at hq
    rcases run'.advance ha' with hc | ⟨new, hn, turn, -, -⟩
    · exact .inl hc
    · rw [hn]
      exact .inr (FinalityAux.discarded_step hq turn)

/-- A worker whose last step is under way begins no other one. -/
theorem not_employs_of_last (run : Course (later ++ p :: earlier) m) (ha : p.agenda = t :: rest)
    (start : Spent i ({ p with agenda := rest }.run t).session.office ({ p with agenda := rest }.run t).agenda) :
    ¬ m.Employs i := by
  have hend : m.Crashed ∨ Spent i m.session.office m.agenda := by
    refine run.after (P := fun _ => True) (I := fun q => q.Crashed ∨ Spent i q.session.office q.agenda) ha (by simp)
      (.inr start) ?_ ?_
    · intro past q c _ _ hq idle
      refine .inr (.inl ?_)
      rcases hq.resolve_left idle.not_crashed with (hq | ⟨w, hx, -⟩ | ⟨r, k, g, w, outcome, hx, -⟩) | ⟨r, k, g, w, hx, -⟩
      · exact .inl hq
      all_goals
        rw [idle.1] at hx
        cases hx
    · intro past q t' rest' run' _ hq ha'
      have hq := hq.resolve_left (not_crashed_of_agenda ha')
      rw [ha'] at hq
      rcases run'.advance ha' with hc | ⟨new, hn, turn, shift, -⟩
      · exact .inl hc
      · rw [hn]
        exact .inr (spent_step hq turn shift)
  intro he
  exact not_employs_of_spent (run.single.resolve_left he.not_crashed) (hend.resolve_left he.not_crashed) he

end Course

end Machine

end LiveHighlight
