import LiveHighlight.Proofs.Session.WorkerAccounting
import LiveHighlight.Proofs.Session.SlotOwnership

/-!
# Stops are final

A worker whose slot is stopped never begins another step: from then on it is at its end (`Doomed`), since the generations that
steps under way carry never exceed the slot's (`Dated`) and a stop counts the slot on. `Course.final` puts this together with
the tenure of the worker that goes in next.

There is one stop that does not count a slot on: that of a slot which looks unused although a worker is under way that has its
place there (`Vacated`). A round frees a slot in this way that is due again while its worker takes a step, so it takes code that
lets work run during a step; `exists_resumed` is a course on which the worker goes on.
-/

namespace LiveHighlight

namespace Machine

/-- Whether the first task begins a step of the worker with a number, out of a slot or at the host's hand. -/
def Employs (m : Machine) (i : Nat) : Prop :=
  (∃ k w, m.Begins k w ∧ w.id = i) ∨
    ∃ name asker rest w, m.agenda = .call (.stepWorker name) asker :: rest ∧ m.session.names.workers.get? name = some w ∧ w.id = i

theorem Employs.not_crashed {m : Machine} {i : Nat} (h : m.Employs i) : ¬ m.Crashed := by
  rcases h with ⟨k, w, hb, -⟩ | ⟨name, asker, rest, w, ha, -⟩
  · obtain ⟨r, due, rest, g, ha, -⟩ := begins_iff.1 hb
    exact not_crashed_of_agenda ha
  · exact not_crashed_of_agenda ha

/-- Whether a slot looks unused although a worker is under way that has its place there. -/
def Vacated (m : Machine) (k : Nat) : Prop :=
  (m.session.scheduler.slot k).phase = .free ∧ (m.session.scheduler.slot k).worker = none ∧
    ∃ r w outcome, .conclude r k (m.session.scheduler.slot k).generation w outcome ∈ m.agenda

end Machine

/-- Whether a worker is discarded, or is about to be. -/
def Discarded (i : Nat) (o : Office) (agenda : List Task) : Prop := i ∈ o.dropped ∨ ∃ w, .discard w ∈ agenda ∧ w.id = i

/-- Whether a worker is at its end: it is discarded, is about to be, or takes a step and has lost its place. -/
def Doomed (i : Nat) (o : Office) (agenda : List Task) : Prop :=
  i ∈ o.dropped ∨ (∃ w, .discard w ∈ agenda ∧ w.id = i) ∨
    ∃ r k g w outcome, .conclude r k g w outcome ∈ agenda ∧ w.id = i ∧ g < (o.scheduler.slot k).generation

/-- No step under way carries a generation that its slot has not reached. -/
def Dated (s : Scheduler Worker) (agenda : List Task) : Prop :=
  ∀ r k g w outcome, .conclude r k g w outcome ∈ agenda → g ≤ (s.slot k).generation

namespace FinalityAux

variable {s : Session} {s' : Scheduler Worker} {o' : Office} {t : Task} {rest new : List Task} {k i : Nat} {past : List Machine}
  {m : Machine}

/-! ### Generations -/

theorem dated_step (hd : Dated s.scheduler (t :: rest)) (shift : Shift s t s')
    (beat : ∀ x ∈ new, x.isRound = true → Beat s t x) : Dated s' (new ++ rest) := by
  intro r k g w outcome hx
  rcases List.mem_append.1 hx with hx | hx
  · cases beat _ hx rfl with
    | stepped _ hc =>
      obtain ⟨-, -, rfl⟩ := Scheduler.claim_step hc
      exact shift.generation_le k
  · exact Nat.le_trans (hd r k g w outcome (.tail _ hx)) (shift.generation_le k)

theorem dated (run : Machine.Course past m) : m.Crashed ∨ Dated m.session.scheduler m.agenda := by
  induction run with
  | new options => exact .inr (by simp [Dated])
  | ask c _ _ _ => exact .inr (by simp [Dated, Machine.ask])
  | step run ha ih =>
    have hd := ih.resolve_left (Machine.not_crashed_of_agenda ha)
    rw [ha] at hd
    rcases run.advance ha with hc | ⟨new, hn, -, shift, beat⟩
    · exact .inl hc
    · rw [hn]
      exact .inr (dated_step hd shift beat)

/-! ### Steps under way -/

/-- No slot looks unused whose worker is under way and has its place there. -/
def Occupied (s : Scheduler Worker) (agenda : List Task) : Prop :=
  ∀ r k w outcome, .conclude r k (s.slot k).generation w outcome ∈ agenda → (s.slot k).phase ≠ .free

/-- Only a stop and rounds free a slot, and a stop counts it on. -/
theorem phase_shift (hk : s.scheduler.Knows k) (ht : t.isRound = false) (hf : (s.scheduler.slot k).phase ≠ .free)
    (hg : (s'.slot k).generation = (s.scheduler.slot k).generation) (h : Shift s t s') : (s'.slot k).phase ≠ .free := by
  have hat := h.shiftAt hk
  generalize hv : s'.view k = v at hat
  generalize s'.nextSeq = next at hat
  rw [show s'.slot k = v.1 from congrArg Prod.fst hv] at hg ⊢
  cases hat with
  | same | evict => exact hf
  | start | pause | install | seat => simp
  | stop => exact absurd hg (Nat.succ_ne_self _)
  | _ => cases ht

theorem occupied_step (hk : s.office.Known (t :: rest)) (ho : Orderly (t :: rest)) (hd : Dated s.scheduler (t :: rest))
    (hocc : Occupied s.scheduler (t :: rest)) (shift : Shift s t s') (beat : ∀ x ∈ new, x.isRound = true → Beat s t x) :
    Occupied s' (new ++ rest) := by
  intro r k w outcome hx
  rcases List.mem_append.1 hx with hx | hx
  · cases beat _ hx rfl with
    | @stepped r₀ _ _ due w₀ _ _ hr hc hl =>
      have hknown : s.scheduler.Knows k := Scheduler.knows_of_worker (Scheduler.claim_step hc).2.1
      cases shift with
      | same =>
        have hdue := (Scheduler.claim_step hc).1
        intro hf
        simp [Slot.isDue, hf] at hdue
      | @claim _ slot _ hr' =>
        rw [hr] at hr'
        cases hr'
        obtain ⟨hdue, hw, -⟩ := Scheduler.claim_step hc
        have hv := congrArg Prod.fst (Scheduler.view_claim hknown r₀.now)
        rw [if_pos hdue, if_neg (by simp [hw])] at hv
        simp only [Scheduler.view] at hv
        simp [hv]
  · have hround : t.isRound = false := by
      cases ht : t.isRound with
      | false => rfl
      | true =>
        rw [ho.alone ht] at hx
        cases hx
    have hle := hd r k _ w outcome (.tail _ hx)
    have hg : (s'.slot k).generation = (s.scheduler.slot k).generation := Nat.le_antisymm hle (shift.generation_le k)
    rw [hg] at hx
    exact phase_shift (hk.tasks _ (.tail _ hx) k rfl) hround (hocc r k w outcome (.tail _ hx)) hg shift

/-- As long as no code that the host lent lets work run, no slot is freed whose worker is under way. -/
theorem not_vacated (run : Machine.Course past m) (calm : ∀ q ∈ past, ¬ Reenters q.agenda) : ¬ m.Vacated k := by
  have hi : m.Crashed ∨ Orderly m.agenda ∧ Occupied m.session.scheduler m.agenda := by
    induction run with
    | new options => exact .inr ⟨orderly_nil, by simp [Occupied]⟩
    | ask c _ _ _ => exact .inr ⟨orderly_call c, by simp [Occupied, Machine.ask]⟩
    | step run ha ih =>
      have hnot := Machine.not_crashed_of_agenda ha
      have hi := (ih fun q hq => calm q (.tail _ hq)).resolve_left hnot
      have hk := run.known.resolve_left hnot
      have hd := (dated run).resolve_left hnot
      have hcalm := calm _ (.head _)
      rw [ha] at hi hk hd hcalm
      rcases run.advance ha with hc | ⟨new, hn, turn, shift, beat⟩
      · exact .inl hc
      · rw [hn]
        exact .inr ⟨turn.orderly hi.1 hcalm, occupied_step hk hi.1 hd hi.2 shift beat⟩
  rintro ⟨hf, -, r, w, outcome, hx⟩
  rcases hi with hc | ⟨-, hocc⟩
  · rw [hc.1] at hx
    cases hx
  · exact hocc r k w outcome hx hf

/-! ### The end of a worker -/

theorem discarded_step {o : Office} (hd : Discarded i o (t :: rest)) (turn : Turn o t o' new) :
    Discarded i o' (new ++ rest) := by
  rcases hd with hd | ⟨w, hx, hw⟩
  · exact .inl (AccountingAux.dropped_turn turn hd)
  · rcases List.mem_cons.1 hx with rfl | hx
    · cases turn with
      | quiet hq => cases hq
      | discard => exact .inl (by simp [hw])
    · exact .inr ⟨w, List.mem_append_right _ hx, hw⟩

theorem doomed_of_discarded {o : Office} {agenda : List Task} (hd : Discarded i o agenda) : Doomed i o agenda :=
  Or.imp_right .inl hd

theorem doomed_step (hd : Doomed i s.office (t :: rest)) {s' : Session} (turn : Turn s.office t s'.office new)
    (shift : Shift s t s'.scheduler) : Doomed i s'.office (new ++ rest) := by
  rcases hd with hd | hd | ⟨r, k, g, w, outcome, hx, hw, hg⟩
  · exact doomed_of_discarded (discarded_step (.inl hd) turn)
  · exact doomed_of_discarded (discarded_step (.inr hd) turn)
  · rcases List.mem_cons.1 hx with rfl | hx
    · -- a step that ends after its worker has lost its place discards it
      generalize s'.office = o' at turn
      cases turn with
      | quiet hq => cases hq
      | conclude =>
        have hne : (s.office.scheduler.slot k).generation ≠ g := Nat.ne_of_gt hg
        exact .inr (.inl ⟨w, by simp [Scheduler.conclude, hne], hw⟩)
    · exact .inr (.inr ⟨r, k, g, w, outcome, List.mem_append_right _ hx, hw,
        Nat.lt_of_lt_of_le hg (shift.generation_le k)⟩)

/-- A worker that is employed is in a slot or kept under a name. -/
theorem one_le_of_employs (he : m.Employs i) : 1 ≤ m.session.office.scheduler.holders (Worker.is i) +
    m.session.office.workers.entries.countP (fun entry => entry.2.is i) := by
  rcases he with ⟨k, w, hb, hw⟩ | ⟨name, asker, rest, w, -, hn, hw⟩
  · obtain ⟨r, due, rest, g, -, -, hc⟩ := Machine.begins_iff.1 hb
    exact Nat.le_add_right_of_le (AccountingAux.one_le_holders ⟨w, (Scheduler.claim_step hc).2.1, hw⟩)
  · have hkept := AccountingAux.countP_erase (Worker.is i) (show m.session.office.workers.get? name = some w from hn)
    simp only [Worker.is, hw, decide_true, Bool.toNat_true] at hkept
    exact Nat.le_add_left_of_le (Nat.le_of_add_left_le hkept)

/-- A worker that is in hand or was discarded is in no slot and kept under no name, so it begins no step. -/
theorem not_employs_of_away (hs : m.session.office.total m.agenda i ≤ 1)
    (away : 1 ≤ m.agenda.countP (Task.holds (Worker.is i)) + m.session.office.dropped.count i) : ¬ m.Employs i := by
  intro he
  have hone := one_le_of_employs he
  simp only [Office.total] at hs
  omega

theorem not_employs_of_doomed (hs : ∀ i, m.session.office.total m.agenda i ≤ 1) (hd : Doomed i m.session.office m.agenda) :
    ¬ m.Employs i := by
  refine not_employs_of_away (hs i) ?_
  rcases hd with hd | ⟨w, hx, hw⟩ | ⟨r, k, g, w, outcome, hx, hw, -⟩
  · exact Nat.le_add_left_of_le (List.one_le_count_iff.2 hd)
  · exact Nat.le_add_right_of_le (List.countP_pos_iff.2 ⟨_, hx, by simp [Task.holds, Worker.is, hw]⟩)
  · exact Nat.le_add_right_of_le (List.countP_pos_iff.2 ⟨_, hx, by simp [Task.holds, Worker.is, hw]⟩)

/-! ### Stops -/

/-- A stop leaves the steps under way at its slot behind, unless the slot looks unused although one of them has its place there. -/
theorem stale_stop {p : Machine} (ha : p.agenda = .stop k :: rest) (hv : ¬ p.Vacated k)
    (hd : Dated p.session.scheduler p.agenda) (hk : p.session.office.Known p.agenda)
    (turn : Turn p.session.office (.stop k) o' new) {r : Round} {g : Nat} {w : Worker} {outcome : Outcome}
    (hx : .conclude r k g w outcome ∈ rest) : g < (o'.scheduler.slot k).generation := by
  have hmem : .conclude r k g w outcome ∈ p.agenda := by simp [ha, hx]
  have hle := hd r k g w outcome hmem
  have hknown : p.session.scheduler.Knows k := hk.tasks (.stop k) (by simp [ha]) k rfl
  cases turn with
  | quiet hq => cases hq
  | stop =>
    have hview := congrArg (fun v => v.1.generation) (Scheduler.view_stop hknown)
    simp only [Scheduler.view] at hview
    split at hview
    · next hfree =>
      have hne : g ≠ (p.session.scheduler.slot k).generation := by
        rintro rfl
        exact hv ⟨hfree.1, hfree.2, r, w, outcome, hmem⟩
      exact Nat.lt_of_lt_of_eq (Nat.lt_of_le_of_ne hle hne) hview.symm
    · exact Nat.lt_of_lt_of_eq (Nat.lt_succ_of_le hle) hview.symm

/-- The worker that a slot holds, or that takes a step there, is at its end once the slot is stopped. -/
theorem doomed_stop {p : Machine} (ha : p.agenda = .stop k :: rest) (hv : ¬ p.Vacated k)
    (hd : Dated p.session.scheduler p.agenda) (hk : p.session.office.Known p.agenda)
    (turn : Turn p.session.office (.stop k) o' new) (hi : p.Holds k i ∨ p.Steps k i) : Doomed i o' (new ++ rest) := by
  rcases hi with ⟨w, hw, hi⟩ | ⟨r, g, w, outcome, hx, hi⟩
  · cases turn with
    | quiet hq => cases hq
    | stop =>
      refine .inr (.inl ⟨w, ?_, hi⟩)
      have hs : (p.session.office.scheduler.stop k).2 = some w := Scheduler.stop_snd.trans hw
      simp [hs]
  · rw [ha] at hx
    rcases List.mem_cons.1 hx with he | hx
    · cases he
    · exact .inr (.inr ⟨r, k, g, w, outcome, List.mem_append_right _ hx, hi, stale_stop ha hv hd hk turn hx⟩)

end FinalityAux

open FinalityAux

namespace Machine

namespace Course

variable {later earlier : List Machine} {p m : Machine} {k : Nat} {rest : List Task}

/-- After a stop, what the slot held or what takes a step there begins no step any more. -/
theorem not_employs (run : Course (later ++ p :: earlier) m) (ha : p.agenda = .stop k :: rest) (hv : ¬ p.Vacated k) {i : Nat}
    (hi : p.Holds k i ∨ p.Steps k i) : ¬ m.Employs i := by
  have hnot := not_crashed_of_agenda ha
  have hd := (dated run.before).resolve_left hnot
  have hk := run.before.known.resolve_left hnot
  have hend : m.Crashed ∨ Doomed i m.session.office m.agenda := by
    refine run.after (P := fun _ => True) (I := fun q => q.Crashed ∨ Doomed i q.session.office q.agenda) ha (by simp) ?_ ?_ ?_
    · rcases run.before.advance ha with hc | ⟨new, hn, turn, -, -⟩
      · exact .inl hc
      · rw [hn]
        exact .inr (doomed_stop ha hv hd hk turn hi)
    · intro past q c _ _ hq idle
      rcases hq.resolve_left idle.not_crashed with hq | ⟨w, hx, -⟩ | ⟨r, k, g, w, outcome, hx, -⟩
      · exact .inr (.inl hq)
      · rw [idle.1] at hx
        cases hx
      · rw [idle.1] at hx
        cases hx
    · intro past q t rest' run' _ hq ha'
      have hq := hq.resolve_left (not_crashed_of_agenda ha')
      rw [ha'] at hq
      rcases run'.advance ha' with hc | ⟨new, hn, turn, shift, -⟩
      · exact .inl hc
      · rw [hn]
        exact .inr (doomed_step hq turn shift)
  intro he
  exact not_employs_of_doomed (run.single.resolve_left he.not_crashed) (hend.resolve_left he.not_crashed) he

/-- The generation of a slot after some task is never above the one later on. -/
theorem generation_le (run : Course (later ++ p :: earlier) m) {t : Task} (ha : p.agenda = t :: rest) (k : Nat) :
    m.Crashed ∨ (({ p with agenda := rest }.run t).session.scheduler.slot k).generation ≤
      (m.session.scheduler.slot k).generation := by
  refine run.after (P := fun _ => True) (I := fun q => q.Crashed ∨
    (({ p with agenda := rest }.run t).session.scheduler.slot k).generation ≤ (q.session.scheduler.slot k).generation)
    ha (by simp) (.inr (Nat.le_refl _)) ?_ ?_
  · intro past q c _ _ hq idle
    exact .inr (hq.resolve_left idle.not_crashed)
  · intro past q t' rest' run' _ hq ha'
    have hq := hq.resolve_left (not_crashed_of_agenda ha')
    exact .inr (Nat.le_trans hq (({ q with agenda := rest' }.run_shift t').generation_le k))

/-- A task after which something else was done did not crash the machine. -/
theorem not_crashed_next (run : Course (later ++ p :: earlier) m) {t : Task} (ha : p.agenda = t :: rest) (hm : ¬ m.Crashed) :
    ¬ ({ p with agenda := rest }.run t).Crashed := by
  intro hc
  refine hm (run.after (P := fun _ => True) (I := Machine.Crashed) ha (by simp) hc ?_ ?_)
  · intro past q c _ _ hq idle
    exact absurd hq idle.not_crashed
  · intro past q t' rest' _ _ hq ha'
    exact absurd hq (not_crashed_of_agenda ha')

/-- Stopping a place is final, and queueing a worker there gives it a place of its own: what the slot held or what takes a step
there begins no step any more, and the worker that is put in keeps the slot until it is done, fails, is stopped or replaced. The
slot must not look unused while a worker is under way that has its place there, which it cannot as long as no code that the host
lent lets work run. -/
theorem final (run : Course (later ++ p :: earlier) m) (ha : p.agenda = .stop k :: rest)
    (held : ¬ p.Vacated k ∨ ∀ q ∈ earlier, ¬ Reenters q.agenda) :
    (∀ i, p.Holds k i ∨ p.Steps k i → ∀ q ∈ m :: later, ¬ q.Employs i) ∧
      ∀ (after between : List Machine) (q : Machine) (w : Worker) (delay : Nat) (others : List Task),
        later = after ++ q :: between → rest = .install k w delay :: others → q.agenda = rest →
        (∀ x ∈ after, ¬ Ousts k w.id x.agenda) → m.Crashed ∨ m.Houses k w.id := by
  have hv : ¬ p.Vacated k := held.elim id (not_vacated run.before)
  refine ⟨?_, ?_⟩
  · intro i hi q hq
    obtain ⟨between, run', -⟩ := run.of_later hq
    exact run'.not_employs ha hv hi
  · rintro after between q w delay others rfl rfl hq kept
    rw [List.append_assoc, List.cons_append] at run
    -- the generation has passed those of all steps that were under way when the slot was stopped
    have hstale : ∀ r g v outcome, .conclude r k g v outcome ∈ others → g < (q.session.scheduler.slot k).generation := by
      intro r g v outcome hx
      have hnot := not_crashed_of_agenda ha
      have hd := (dated run.before.before).resolve_left hnot
      have hk := run.before.before.known.resolve_left hnot
      have hle := (run.before.generation_le ha k).resolve_left (not_crashed_of_agenda hq)
      rcases run.before.before.advance ha with hc | ⟨new, -, turn, -, -⟩
      · exact absurd hc (run.before.not_crashed_next ha (not_crashed_of_agenda hq))
      · exact Nat.lt_of_lt_of_le (stale_stop ha hv hd hk turn (.tail _ hx)) hle
    rcases run.tenant hq hstale kept with hc | ht
    · exact .inl hc
    · obtain ⟨v, hv⟩ := ht.housed
      exact .inr ⟨v, hv, ht.alone v hv⟩

end Course

end Machine

namespace FinalityAux

/-- A session with a place `p` at which a worker waits that plays some acts. -/
def waiting (acts : List (Act Call)) : Machine :=
  let opened := (Machine.ask (.new .standard) (.place "p")).settle 8
  (Machine.ask opened.session (.onPlace "p" (.queue ⟨"w", acts, []⟩ 0))).settle 8

theorem course_waiting (acts : List (Act Call)) : ∃ past, Machine.Course past (waiting acts) := by
  have opened := (Machine.Course.ask (.place "p") (.new .standard) (by decide)).settle 8
  exact ⟨_, (Machine.Course.ask (.onPlace "p" (.queue ⟨"w", acts, []⟩ 0)) opened (by decide +kernel)).settle 8⟩

/-- A step of some calls after which the worker wants to go on, and its last one. -/
def calling (calls : List Call) : List (Act Call) := [⟨calls, .ok (.again 0)⟩, ⟨[], .ok .finished⟩]

/-- Queues another worker at the place. -/
def replace : Call := .onPlace "p" (.queue ⟨"n", [], []⟩ 0)

/-- Whether an agenda begins by putting a worker into the first slot in place of another one. -/
def replaces : List Task → Bool
  | .stop 0 :: .install 0 w _ :: _ => w.id = 1
  | _ => false

theorem agenda_of_replaces (agenda : List Task) (h : replaces agenda = true) :
    ∃ w delay others, agenda = .stop 0 :: .install 0 w delay :: others ∧ w.id = 1 := by
  unfold replaces at h
  split at h
  · exact ⟨_, _, _, rfl, by simpa using h⟩
  · cases h

/-- The step of the worker that replaces itself, where it does so. -/
def replacing : Machine := (Machine.ask (waiting (calling [replace])).session (.drive .tick 1)).settle 5

/-- The same of a worker that before that starts its place and lets a round run. -/
def tricking : Machine :=
  (Machine.ask (waiting (calling [.onPlace "p" (.start 0), .drive .tick 1, replace])).session (.drive .tick 1)).settle 12

/-- The next round. -/
def tricked : Machine := (Machine.ask (tricking.settle 60).session (.drive .tick 1)).settle 2

theorem steps_of_any {m : Machine} (h : m.agenda.any (fun x => match x with
    | .conclude _ 0 _ w _ => decide (w.id = 0)
    | _ => false) = true) : m.Steps 0 0 := by
  obtain ⟨x, hx, hw⟩ := List.any_eq_true.1 h
  split at hw
  · exact ⟨_, _, _, _, hx, by simpa using hw⟩
  · cases hw

end FinalityAux

namespace Machine

namespace Course

/-- A worker that replaces itself in its own step begins no other one, and the one that it queued has the place. -/
theorem final_replaced : ∃ (later earlier : List Machine) (p m : Machine) (rest : List Task), Course (later ++ p :: earlier) m ∧
    m.Idle ∧ p.agenda = .stop 0 :: rest ∧ p.Steps 0 0 ∧ (∀ q ∈ m :: later, ¬ q.Employs 0) ∧ m.Houses 0 1 := by
  obtain ⟨past, called⟩ := course_waiting (calling [replace])
  obtain ⟨before, asked⟩ : ∃ before, Course before replacing :=
    ⟨_, (called.ask (.drive .tick 1) (by decide +kernel)).settle 5⟩
  obtain ⟨w, delay, others, ha, hw⟩ := agenda_of_replaces replacing.agenda (by decide +kernel)
  have hstopped : (replacing.settle 1).agenda = .install 0 w delay :: others := by
    have hb : (replacing.session.scheduler.slot 0).barred = false := by decide +kernel
    have he : (replacing.session.scheduler.slot 0).worker.isNone = true := by decide +kernel
    simp [Machine.settle, Machine.step, ha, Machine.run, Machine.stop, Machine.onSlot, hb, Machine.push, Machine.schedule,
      Machine.put, Scheduler.stop_snd, Option.isNone_iff_eq_none.1 he]
  have stopped : Course (replacing :: before) (replacing.settle 1) := asked.settle_succ 0 (by decide +kernel)
  have run : Course (((replacing.settle 1).step.passed 59 [] ++ [replacing.settle 1]) ++ replacing :: before)
      ((replacing.settle 1).settle 60) := by
    rw [List.append_assoc]
    exact stopped.settle_succ 59 (by decide +kernel)
  have hfree : ¬ replacing.Vacated 0 := fun hv => absurd hv.1 (by decide +kernel)
  obtain ⟨hstop, hqueue⟩ := run.final ha (.inl hfree)
  have hsteps : replacing.Steps 0 0 := steps_of_any (by decide +kernel)
  have hkept : ∀ x ∈ (replacing.settle 1).step.passed 59 [], ¬ Ousts 0 w.id x.agenda := by
    rw [hw]
    decide +kernel
  have hhouse := hqueue _ [] (replacing.settle 1) w delay others rfl rfl hstopped hkept
  have hidle : ((replacing.settle 1).settle 60).Idle := by decide +kernel
  rw [hw] at hhouse
  exact ⟨_, _, replacing, _, _, run, hidle, ha, hsteps, hstop 0 (.inr hsteps), hhouse.resolve_left hidle.not_crashed⟩

/-- A worker whose place looked unused during its step goes on after it was replaced. -/
theorem exists_resumed : ∃ (later earlier : List Machine) (p m : Machine) (rest : List Task), Course (later ++ p :: earlier) m ∧
    p.agenda = .stop 0 :: rest ∧ p.Steps 0 0 ∧ m.Employs 0 := by
  obtain ⟨past, called⟩ := course_waiting (calling [.onPlace "p" (.start 0), .drive .tick 1, replace])
  have asked := (called.ask (.drive .tick 1) (by decide +kernel)).settle 12
  obtain ⟨w, delay, others, ha, -⟩ := agenda_of_replaces tricking.agenda (by decide +kernel)
  have again := ((asked.settle_succ 59 (by decide +kernel)).ask (.drive .tick 1) (by decide +kernel)).settle 2
  rw [← List.cons_append, passed_append] at again
  refine ⟨_, _, tricking, tricked, _, again, ha, steps_of_any (by decide +kernel), .inl ?_⟩
  obtain ⟨⟨k, v⟩, hb, hv⟩ := Option.map_eq_some_iff.1 (show tricked.begun?.map (fun b => b.2.id) = some 0 by decide +kernel)
  exact ⟨k, v, hb, hv⟩

end Course

end Machine

end LiveHighlight
