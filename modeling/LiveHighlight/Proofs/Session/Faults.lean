import LiveHighlight.Proofs.Session.Finality

/-!
# Faults

What the host is told when it lets work run. While no code that the host lent lets work run itself, only the last task of the
agenda belongs to a round, and it alone answers the host (`Standing`). So the host is told of a fatal fault exactly if a step
ended with one while its worker had its place, and that step is the last one (`Course.failed_iff`). Of a worker that has lost its
place, because the slot was stopped or given to another one during the step, the outcome is not looked at:
`exists_swallowed` is a course on which a fatal fault is lost in this way.
-/

namespace LiveHighlight

/-- The fault with which the first task ends a step whose worker has not lost its place. -/
def Machine.failure? (m : Machine) : Option WorkFault :=
  match m.agenda with
  | .conclude _ k g _ (.error f) :: _ => if g = (m.session.scheduler.slot k).generation then some f else none
  | _ => none

/-- The fatal fault with which the first task ends a step, whether or not its worker has its place. -/
def Machine.fatality? (m : Machine) : Option String :=
  match m.agenda with
  | .conclude _ _ _ _ (.error (.fatal reason)) :: _ => some reason
  | _ => none

/-- Whether the first task ends a step with a fault whose worker has not lost its place. -/
def Machine.Fails (m : Machine) (f : WorkFault) : Prop := m.failure? = some f

instance (m : Machine) (f : WorkFault) : Decidable (m.Fails f) := inferInstanceAs (Decidable (m.failure? = some f))

theorem Machine.fails_iff {m : Machine} {f : WorkFault} :
    m.Fails f ↔ ∃ r k w rest, m.agenda = .conclude r k (m.session.scheduler.slot k).generation w (.error f) :: rest := by
  constructor
  · intro h
    unfold Fails failure? at h
    split at h
    · next r k g w f' rest ha =>
      obtain ⟨rfl, hf⟩ := Option.ite_none_right_eq_some.1 h
      cases hf
      exact ⟨r, k, w, rest, ha⟩
    · cases h
  · rintro ⟨r, k, w, rest, ha⟩
    simp [Fails, failure?, ha]

/-- The drive that a task belongs to. -/
def Task.drive? : Task → Option Drive
  | .beginRound d => some d
  | .round r | .conclude r _ _ _ _ | .close r _ _ => some r.drive
  | _ => none

/-- The fatal fault that a task tells. -/
def Task.fatal? : Task → Option WorkFault
  | .close _ _ c => c.fault.filter fun f => !f.isRecoverable
  | _ => none

namespace FaultsAux

open OrderlyAux

/-- How far a drive is that the host asked for, given the fatal faults with which steps ended so far. -/
inductive Standing (kind : DriveKind) (failed : WorkFault → Prop) (m : Machine) : Prop where
  | crashed (hc : m.Crashed)
  /-- A task of the drive comes last, and nothing before it has to do with rounds. -/
  | underway (pre : List Task) (x : Task) (d : Drive) (ha : m.agenda = pre ++ [x]) (plain : ∀ y ∈ pre, Plain y)
      (hd : x.drive? = some d) (host : d.asker = .host) (hk : d.kind = kind) (hf : ∀ f, x.fatal? = some f ↔ failed f)
  | returned (ha : m.agenda = []) (hf : ∀ f, m.reply = some (.failed f) ↔ failed f)
      (hr : (∃ f, m.reply = some (.failed f)) ∨ ∃ d wait, d.kind = kind ∧ m.reply = some (Drive.reply d wait))

variable {kind : DriveKind} {failed : WorkFault → Prop} {m : Machine} {d : Drive}

theorem failed_ne_reply (d : Drive) (wait : Option Nat) (f : WorkFault) : some (d.reply wait) ≠ some (.failed f) := by
  unfold Drive.reply
  split <;> simp

theorem standing_alone {x : Task} (ha : m.agenda = [x]) (hd : x.drive? = some d) (host : d.asker = .host) (hk : d.kind = kind)
    (hf : ∀ f, x.fatal? = some f ↔ failed f) : Standing kind failed m :=
  .underway [] x d ha (by simp) hd host hk hf

/-- A drive without a fatal fault is over. -/
theorem standing_reply (ha : m.agenda = []) (host : d.asker = .host) (hk : d.kind = kind) (wait : Option Nat)
    (hf : ∀ f, ¬ failed f) : Standing kind failed (m.answer d.asker (d.reply wait)) := by
  rw [host]
  refine .returned ha ?_ (.inr ⟨d, wait, hk, rfl⟩)
  intro f
  exact ⟨fun h => absurd h (failed_ne_reply d wait f), fun h => absurd h (hf f)⟩

theorem standing_beginRound (ha : m.agenda = []) (host : d.asker = .host) (hk : d.kind = kind) (hf : ∀ f, ¬ failed f) :
    Standing kind failed (m.beginRound d) := by
  unfold Machine.beginRound
  split
  · exact standing_reply ha host hk none hf
  · split
    · exact .crashed ⟨rfl, rfl⟩
    · refine standing_alone (d := { d with left := d.left - 1 }) (by rw [Machine.push, ha]; rfl) rfl host hk ?_
      simp [Task.fatal?, hf]

theorem standing_round {r : Round} (ha : m.agenda = []) (host : r.drive.asker = .host) (hk : r.drive.kind = kind)
    (hf : ∀ f, ¬ failed f) : Standing kind failed (m.round r) := by
  unfold Machine.round
  split
  · unfold Machine.endRound
    dsimp only
    split
    · exact standing_alone (d := { r.drive with ran := r.drive.ran + r.ran }) (by rw [Machine.push, ha]; rfl) rfl host hk
        (by simp [Task.fatal?, hf])
    · exact standing_reply (d := { r.drive with ran := r.drive.ran + r.ran }) ha host hk _ hf
  · next slot due _ =>
    dsimp only
    split
    · next scheduler w g _ =>
      obtain ⟨w', outcome, s, new, h, -, -, hn⟩ :=
        OfficeAux.work_spec (m.schedule scheduler) w (.conclude { r with due } slot g)
      rw [h]
      refine .underway new (.conclude { r with due } slot g w' outcome) r.drive ?_
        (fun y hy => plain_of_light (hn y hy)) rfl host hk (by simp [Task.fatal?, hf])
      simp [Machine.push, Machine.put, Machine.schedule, ha]
    · refine standing_alone (x := .round { r with due }) (d := r.drive) ?_ rfl host hk (by simp [Task.fatal?, hf])
      simp [Machine.push, Machine.schedule, Machine.put, ha]

/-- The outcome of a step is looked at only if its worker has not lost its place. -/
theorem fault_conclude {ω : Type} {s : Scheduler ω} {k g now : Nat} {w : ω} {outcome : Outcome} {f : WorkFault} :
    (s.conclude k g w outcome now).2.fault = some f ↔ g = (s.slot k).generation ∧ outcome = .error f := by
  unfold Scheduler.conclude
  dsimp only
  split
  · next hg =>
    simp only [reduceCtorEq, false_iff, not_and]
    exact fun h => absurd h.symm hg
  · next hg =>
    simp only [not_not] at hg
    split
    · split <;> simp
    · simp
    · simp [hg]

theorem standing_conclude {q : Machine} {r : Round} {k g : Nat} {w : Worker} {outcome : Outcome}
    (ha : q.agenda = [.conclude r k g w outcome]) (host : r.drive.asker = .host) (hk : r.drive.kind = kind)
    (hf : ∀ f, ¬ failed f) :
    Standing kind (fun f => failed f ∨ f.isRecoverable = false ∧ q.Fails f)
      (Machine.conclude { q with agenda := [] } r k g w outcome) := by
  refine .underway ((q.session.scheduler.conclude k g w outcome q.session.now).2.discarded.toList.map .discard)
    (.close r k (q.session.scheduler.conclude k g w outcome q.session.now).2) r.drive ?_ ?_ rfl host hk ?_
  · simp [Machine.conclude, Machine.push, Machine.schedule, Machine.put]
  · intro y hy
    obtain ⟨old, -, rfl⟩ := List.mem_map.1 hy
    exact ⟨rfl, by simp⟩
  · intro f
    have hfails : q.Fails f ↔ g = (q.session.scheduler.slot k).generation ∧ outcome = .error f := by
      rw [Machine.fails_iff]
      constructor
      · rintro ⟨r', k', w', rest, h⟩
        rw [ha] at h
        cases h
        exact ⟨rfl, rfl⟩
      · rintro ⟨rfl, rfl⟩
        exact ⟨r, k, w, [], ha⟩
    simp only [Task.fatal?, Option.filter_eq_some_iff, fault_conclude, hfails, hf, false_or, Bool.not_eq_true']
    exact and_comm

theorem standing_close {r : Round} {k : Nat} {c : Conclusion Worker} (ha : m.agenda = []) (host : r.drive.asker = .host)
    (hk : r.drive.kind = kind) (hf : ∀ f, (Task.close r k c).fatal? = some f ↔ failed f) :
    Standing kind failed (m.close r k c) := by
  obtain ⟨m', hs, hclose⟩ := m.close_cases r k c
  have ha' : m'.agenda = [] := by cases hs <;> exact ha
  rcases hclose with ⟨reason, hc, he⟩ | ⟨hnot, he⟩
  · have hall (f : WorkFault) : WorkFault.fatal reason = f ↔ failed f := by
      rw [← hf f]
      simp only [Task.fatal?, hc, Option.filter_eq_some_iff, Option.some.injEq]
      refine ⟨?_, fun h => h.1⟩
      rintro rfl
      exact ⟨rfl, rfl⟩
    rw [he, host]
    refine .returned ha' ?_ (.inl ⟨_, rfl⟩)
    intro f
    rw [← hall f]
    exact ⟨fun h => by cases h; rfl, fun h => by rw [← h]; rfl⟩
  · rw [he]
    refine standing_alone (by rw [Machine.push, ha']; rfl) rfl host hk ?_
    intro f
    rw [← hf f]
    simp only [Task.fatal?, reduceCtorEq, false_iff, Option.filter_eq_some_iff]
    rintro ⟨hc, hr⟩
    cases f with
    | recoverable => cases hr
    | fatal reason => exact hnot reason hc

/-- A task carries a drive on, and remembers the fatal fault with which a step ends. -/
theorem standing_step {past : List Machine} {q : Machine} {t : Task} {rest : List Task} (run : Machine.Course past q)
    (ha : q.agenda = t :: rest) (hr : ¬ Reenters q.agenda) (hs : Standing kind failed q) :
    Standing kind (fun f => failed f ∨ f.isRecoverable = false ∧ q.Fails f) ({ q with agenda := rest }.run t) := by
  have silent (ht : t.isRound = false ∨ ∀ r k g w outcome, t ≠ .conclude r k g w outcome) :
      (fun f => failed f ∨ f.isRecoverable = false ∧ q.Fails f) = failed := by
    funext f
    refine propext ⟨?_, .inl⟩
    rintro (h | ⟨-, h⟩)
    · exact h
    · obtain ⟨r, k, w, rest', h⟩ := Machine.fails_iff.1 h
      rw [ha] at h
      cases h
      rcases ht with ht | ht
      · cases ht
      · exact absurd rfl (ht _ _ _ _ _)
  cases hs with
  | crashed hc =>
    rw [hc.1] at ha
    cases ha
  | returned hnil =>
    rw [hnil] at ha
    cases ha
  | @underway pre x d hx plain hd host hk hf =>
    rw [hx] at ha
    cases pre with
    | nil =>
      cases ha
      cases t with
      | beginRound d' =>
        cases hd
        rw [silent (.inr (by simp))]
        exact standing_beginRound rfl host hk fun f h => by cases (hf f).2 h
      | round r =>
        cases hd
        rw [silent (.inr (by simp))]
        exact standing_round rfl host hk fun f h => by cases (hf f).2 h
      | conclude r k g w outcome =>
        cases hd
        exact standing_conclude hx host hk fun f h => by cases (hf f).2 h
      | close r k c =>
        cases hd
        rw [silent (.inr (by simp))]
        exact standing_close rfl host hk hf
      | _ => cases hd
    | cons y pre =>
      cases ha
      have hplain := plain t (.head _)
      rw [silent (.inl hplain.1)]
      rcases run.advance hx with hc | ⟨new, hn, turn, -, -⟩
      · exact .crashed hc
      · rcases plain_of_turn turn with hnew | ⟨-, ht | ⟨kind', rounds, asker, rfl⟩⟩
        · refine .underway (new ++ pre) x d (by rw [hn]; simp) ?_ hd host hk hf
          intro z hz
          rcases List.mem_append.1 hz with hz | hz
          · exact hnew z hz
          · exact plain z (.tail _ hz)
        · rw [hplain.1] at ht
          cases ht
        · cases asker with
          | host => exact absurd rfl (hplain.2 _)
          | script call =>
            rw [hx] at hr
            exact absurd trivial hr

variable {later earlier : List Machine} {p : Machine} {rounds : Nat}

/-- A drive that the host asked for stands where its tasks and the faults of the steps so far have brought it. -/
theorem standing (run : Machine.Course (later ++ p :: earlier) m) (asked : p.agenda = [.call (.drive kind rounds) .host])
    (underway : ∀ q ∈ later, q.agenda ≠ []) (calm : ∀ q ∈ later, ¬ Reenters q.agenda) :
    Standing kind (fun f => f.isRecoverable = false ∧ ∃ q ∈ later, q.Fails f) m := by
  induction later generalizing m with
  | nil =>
    cases run with
    | ask c _ idle =>
      rw [idle.1] at asked
      cases asked
    | step _ ha =>
      rw [ha] at asked
      cases asked
      exact standing_alone rfl rfl rfl rfl (by simp [Task.fatal?])
  | cons q later ih =>
    cases run with
    | ask c _ idle => exact absurd idle.1 (underway _ (.head _))
    | step run ha =>
      have hs := standing_step run ha (calm _ (.head _))
        (ih run (fun x hx => underway x (.tail _ hx)) fun x hx => calm x (.tail _ hx))
      have he : (fun f => (f.isRecoverable = false ∧ ∃ x ∈ later, x.Fails f) ∨ f.isRecoverable = false ∧ q.Fails f) =
          fun f => f.isRecoverable = false ∧ ∃ x ∈ q :: later, x.Fails f := by
        funext f
        simp only [List.exists_mem_cons_iff, and_or_left, eq_iff_iff]
        exact or_comm
      rwa [he] at hs

/-- Of a round under way, the task that is done is the last one. -/
theorem alone_of_standing (hs : Standing kind failed m) {t : Task} {rest : List Task} (ha : m.agenda = t :: rest)
    (ht : t.isRound = true) : rest = [] ∧ (∃ d, t.drive? = some d ∧ d.asker = .host) ∧ ∀ f, t.fatal? = some f ↔ failed f := by
  cases hs with
  | crashed hc =>
    rw [hc.1] at ha
    cases ha
  | returned hnil =>
    rw [hnil] at ha
    cases ha
  | underway pre x d hx plain hd host _ hf =>
    rw [hx] at ha
    cases pre with
    | nil =>
      cases ha
      exact ⟨rfl, ⟨d, hd, host⟩, hf⟩
    | cons y pre =>
      cases ha
      rw [(plain t (.head _)).1] at ht
      cases ht

/-- A step that ends with a fatal fault, and whose worker has its place and ends in silence, is told at once. -/
theorem reply_of_fails {q : Machine} {r : Round} {k : Nat} {w : Worker} {reason : String}
    (ha : q.agenda = [.conclude r k (q.session.scheduler.slot k).generation w (.error (.fatal reason))])
    (host : r.drive.asker = .host) (silent : w.onDrop = []) :
    (q.settle 4).agenda = [] ∧ (q.settle 4).reply = some (.failed (.fatal reason)) := by
  simp [Machine.settle, Machine.step, ha, Machine.run, Machine.conclude, Scheduler.conclude, Machine.push, Machine.schedule,
    Machine.put, Machine.discard, silent, Machine.script, Machine.close, host, Machine.answer]

end FaultsAux

open FaultsAux

namespace Machine

namespace Course

variable {later earlier : List Machine} {p m : Machine} {kind : DriveKind} {rounds : Nat}

/-- When the host lets work run, it is told of a fault exactly if it is fatal and a step ended with it whose worker had its place
then; no other step begins after that one. Otherwise it gets a report. Where the worker of such a step ends in silence, nothing
can keep the fault from the host. -/
theorem failed_iff (run : Course (later ++ p :: earlier) m) (asked : p.agenda = [.call (.drive kind rounds) .host])
    (underway : ∀ q ∈ later, q.agenda ≠ []) (calm : ∀ q ∈ later, ¬ Reenters q.agenda) :
    (m.Idle → (∀ f, m.reply = some (.failed f) ↔ f.isRecoverable = false ∧ ∃ q ∈ later, q.Fails f) ∧
        ((∃ f, m.reply = some (.failed f)) ∨ ∃ d wait, d.kind = kind ∧ m.reply = some (Drive.reply d wait))) ∧
      (∀ f after q before, later = after ++ q :: before → q.Fails f → f.isRecoverable = false →
        ∀ x ∈ m :: after, ∀ k w, ¬ x.Begins k w) ∧
      ∀ q ∈ later, ∀ r k w f rest, q.agenda = .conclude r k (q.session.scheduler.slot k).generation w (.error f) :: rest →
        f.isRecoverable = false → w.onDrop = [] → (q.settle 4).Idle ∧ (q.settle 4).reply = some (.failed f) := by
  refine ⟨?_, ?_, ?_⟩
  · intro idle
    cases standing run asked underway calm with
    | crashed hc => exact absurd hc idle.not_crashed
    | underway pre x d ha =>
      rw [idle.1] at ha
      exact absurd ha.symm (by simp)
    | returned _ hf hr => exact ⟨hf, hr⟩
  · rintro f after q before rfl hfails hfatal x hx k w hb
    rw [List.append_assoc, List.cons_append] at run
    obtain ⟨between, run', hsub⟩ := run.of_later hx
    rw [← List.cons_append, ← List.append_assoc] at run'
    have hmem {y : Machine} (hy : y ∈ between ++ q :: before) : y ∈ after ++ q :: before := by
      rcases List.mem_append.1 hy with hy | hy
      · exact List.mem_append_left _ (hsub hy)
      · exact List.mem_append_right _ hy
    have hs := standing run' asked (fun y hy => underway y (hmem hy)) fun y hy => calm y (hmem hy)
    obtain ⟨r, due, rest, g, ha, -⟩ := begins_iff.1 hb
    obtain ⟨-, -, hf⟩ := alone_of_standing hs ha rfl
    cases (hf f).2 ⟨hfatal, q, by simp, hfails⟩
  · intro q hq r k w f rest ha hfatal silent
    obtain ⟨before, after, rfl⟩ := List.append_of_mem hq
    rw [List.append_assoc, List.cons_append] at run
    have run' := run.before
    have hs := standing run' asked (fun y hy => underway y (by simp [hy])) fun y hy => calm y (by simp [hy])
    obtain ⟨rfl, ⟨d, hd, host⟩, -⟩ := alone_of_standing hs ha rfl
    cases f with
    | recoverable => cases hfatal
    | fatal reason =>
      cases hd
      obtain ⟨hnil, hreply⟩ := reply_of_fails ha host silent
      exact ⟨⟨hnil, by simp [hreply]⟩, hreply⟩

end Course

end Machine

namespace FaultsAux

/-- The step of a worker that makes a call on its own place and fails for good, where the host lets it run. -/
def failing (call : PlaceCall Call) : Machine :=
  Machine.ask (FinalityAux.waiting [⟨[.onPlace "p" call], .error (.fatal "boom")⟩]).session (.drive .tick 1)

theorem course_failing (call : PlaceCall Call) (idle : (FinalityAux.waiting [⟨[.onPlace "p" call], .error (.fatal "boom")⟩]).Idle) :
    ∃ earlier, Machine.Course ((failing call).step.passed 59 [] ++ failing call :: earlier) ((failing call).settle 60) := by
  obtain ⟨past, waited⟩ := FinalityAux.course_waiting [⟨[.onPlace "p" call], .error (.fatal "boom")⟩]
  exact ⟨_, (waited.ask (.drive .tick 1) idle).settle_succ 59 rfl⟩

end FaultsAux

namespace Machine

namespace Course

/-- A worker that pauses its own place in the step in which it fails for good. -/
theorem failed_iff_paused : ∃ (later earlier : List Machine) (p m : Machine), Course (later ++ p :: earlier) m ∧
    p.agenda = [.call (.drive .tick 1) .host] ∧ m.Idle ∧ m.reply = some (.failed (.fatal "boom")) := by
  obtain ⟨earlier, run⟩ := course_failing .pause (by decide +kernel)
  have idle : ((failing .pause).settle 60).Idle := by decide +kernel
  have h := (run.failed_iff rfl (by decide +kernel) (by decide +kernel)).1 idle
  exact ⟨_, earlier, failing .pause, _, run, rfl, idle, (h.1 _).2 (by decide +kernel)⟩

/-- A worker that stops its own place in the step in which it fails for good: the host is not told. -/
theorem exists_swallowed : ∃ (later earlier : List Machine) (p m : Machine), Course (later ++ p :: earlier) m ∧
    p.agenda = [.call (.drive .tick 1) .host] ∧ (∀ q ∈ later, q.agenda ≠ []) ∧ (∀ q ∈ later, ¬ Reenters q.agenda) ∧ m.Idle ∧
    (∃ q ∈ later, q.fatality? = some "boom") ∧
    m.reply = some (.report ⟨1, none⟩) := by
  obtain ⟨earlier, run⟩ := course_failing .stop (by decide +kernel)
  exact ⟨_, earlier, failing .stop, _, run, rfl, by decide +kernel, by decide +kernel, by decide +kernel, by decide +kernel,
    by decide +kernel⟩

end Course

end Machine

end LiveHighlight
