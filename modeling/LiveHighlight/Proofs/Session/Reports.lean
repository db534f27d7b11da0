import LiveHighlight.Proofs.Session.Drives
import LiveHighlight.Proofs.Session.Naming

/-!
# What the host is told of its drives

A report counts the steps that were begun, and its wait is taken from the schedule as it is when the host gets it, so a host that
sleeps on it misses nothing (`Course.tick_report`). The one exception is a slice that may have no round: it waits for nothing
whatever is scheduled (`Course.slice_report`, `Course.exists_starved`).

`Tally` is what is true of the task of a drive while the drive goes on: the steps that it has counted, the rounds that it may
still begin, and, for as long as a round has begun no step, that the schedule is as the round found it.
-/

namespace LiveHighlight

/-! ## Waits -/

namespace Scheduler

variable {ω : Type} {s : Scheduler ω} {now wait : Nat}

theorem nextWait_eq_none : s.nextWait now = none ↔ ∀ k ∈ s.pending, (s.slot k).appointment = none := by
  simp [nextWait]

/-- A wait is the one for the earliest appointment, or the longest one. -/
theorem nextWait_eq_some (h : s.nextWait now = some wait) : ∃ k ∈ s.pending, ∃ at_, (s.slot k).appointment = some at_ ∧
    (∀ j ∈ s.pending, ∀ at', (s.slot j).appointment = some at' → at_ ≤ at') ∧ wait = min (at_ - now) s.options.maxWait := by
  obtain ⟨least, hleast, rfl⟩ := Option.map_eq_some_iff.1 h
  have hne : (s.pending.filterMap fun id => (s.slot id).appointment) ≠ [] := by
    intro hnil
    rw [hnil] at hleast
    cases hleast
  obtain ⟨at_, hat⟩ := Option.ne_none_iff_exists'.1 (mt List.min?_eq_none_iff.1 hne)
  obtain ⟨hmem, hle⟩ := List.min?_eq_some_iff.1 hat
  obtain ⟨k, hk, happ⟩ := List.mem_filterMap.1 hmem
  refine ⟨k, hk, at_, happ, fun j hj at' hat' => hle at' (List.mem_filterMap.2 ⟨j, hj, hat'⟩), ?_⟩
  -- the least difference is that of the least appointment
  obtain ⟨hmem', hle'⟩ := List.min?_eq_some_iff.1 hleast
  obtain ⟨at', hat', rfl⟩ := List.mem_map.1 hmem'
  rw [Nat.le_antisymm (hle' _ (List.mem_map_of_mem hmem)) (Nat.sub_le_sub_right (hle at' hat') now)]

end Scheduler

/-! ## Tallies -/

/-- Whether the first task begins a round. -/
def Machine.opens (m : Machine) : Bool :=
  match m.agenda with
  | .beginRound d :: _ => decide (d.left ≠ 0)
  | _ => false

/-- The steps that a drive has counted where one of its tasks is to be done, with the one that is under way. -/
def Task.steps : Task → Nat
  | .beginRound d => d.ran
  | .round r => r.drive.ran + r.ran
  | .conclude r _ _ _ _ | .close r _ _ => r.drive.ran + r.ran + 1
  | _ => 0

/-- A round that was begun last where the machine was `q`, and the task `x` of it. -/
structure Opened (p q : Machine) (later : List Machine) (m : Machine) (x : Task) (r : Round) : Prop where
  last : later.find? Machine.opens = some q
  now : r.now = q.session.now
  /-- The first round of a drive finds the schedule as it was when the host asked. -/
  first : later.countP Machine.opens = 1 →
    r.drive.ran = 0 ∧ q.session.scheduler = p.session.scheduler ∧ q.session.now = p.session.now
  /-- Before its first step nothing has changed since the round began. -/
  idle : x = .round r → r.ran = 0 → r.due = q.session.scheduler.due q.session.now ∧
    m.session.scheduler = q.session.scheduler
  /-- A round that found nothing due begins no step. -/
  empty : q.session.scheduler.due q.session.now = [] → x = .round r ∧ r.ran = 0

/-- What is true of the task `x` of a drive that the host asked for at `p`; the machines passed since are `later`. -/
structure Tally (p : Machine) (kind : DriveKind) (rounds : Nat) (later : List Machine) (m : Machine) (x : Task) : Prop where
  drive : ∃ d, x.drive? = some d ∧ d.asker = .host ∧ d.kind = kind ∧ d.started = p.session.now ∧
    d.left + later.countP Machine.opens = rounds
  steps : x.steps = later.countP fun q => q.begun?.isSome
  first : ∀ d, x = .beginRound d → later.countP Machine.opens = 0 →
    d.ran = 0 ∧ m.session.scheduler = p.session.scheduler ∧ m.session.now = p.session.now
  again : ∀ d, x = .beginRound d → later.countP Machine.opens ≠ 0 → d.left ≠ 0
  opened : ∀ r, x.round? = some r → ∃ q, Opened p q later m x r

open DrivesAux

namespace ReportsAux

variable {p q m : Machine} {kind : DriveKind} {rounds : Nat} {later : List Machine} {x x' : Task} {rest : List Task}

theorem opens_of_not_begin (ha : q.agenda = x :: rest) (hx : ∀ d, x ≠ .beginRound d) : q.opens = false := by
  unfold Machine.opens
  rw [ha]
  split
  · next h =>
    obtain ⟨rfl, -⟩ := List.cons.inj h
    exact absurd rfl (hx _)
  · rfl

theorem countP_of_false {f : Machine → Bool} (h : f q = false) : (q :: later).countP f = later.countP f := by
  simp [h]

theorem find_of_false {f : Machine → Bool} (h : f q = false) : (q :: later).find? f = later.find? f := by
  simp [h]

/-- What is done during a step counts nothing. -/
theorem tally_plain {t : Task} {pre : List Task} (h : Tally p kind rounds later q x) (ha : q.agenda = t :: (pre ++ [x]))
    (ht : OrderlyAux.Plain t) (hs : x.slot? ≠ none) : Tally p kind rounds (q :: later) m x := by
  have hopens : q.opens = false := opens_of_not_begin ha fun d hd => by simp [hd, OrderlyAux.Plain, Task.isRound] at ht
  have hbegun : q.begun?.isSome = false := by
    rw [begun_of_not_round ha fun r hr => by simp [hr, OrderlyAux.Plain, Task.isRound] at ht]
    rfl
  refine ⟨?_, ?_, ?_, ?_, ?_⟩
  · rw [countP_of_false hopens]
    exact h.drive
  · rw [countP_of_false hbegun]
    exact h.steps
  · rintro d rfl
    exact absurd rfl hs
  · rintro d rfl
    exact absurd rfl hs
  · intro r hr
    obtain ⟨q', ho⟩ := h.opened r hr
    refine ⟨q', (find_of_false hopens).trans ho.last, ho.now, ?_, ?_, ho.empty⟩
    · rw [countP_of_false hopens]
      exact ho.first
    · rintro rfl
      exact absurd rfl hs

theorem drive_of_round {r : Round} (h : x.round? = some r) : x.drive? = some r.drive := by
  cases x with
  | round | conclude | close =>
    cases h
    rfl
  | _ => cases h

theorem begin_ne_of_round {r : Round} (h : x.round? = some r) (d : Drive) : x ≠ .beginRound d := by
  rintro rfl
  cases h

/-- The worker of the first slot of a round is there, as long as nothing has changed since the round began. -/
theorem claim_of_idle {r : Round} {slot : Nat} {due : List Nat} (ho : Opened p m later q (.round r) r) (hr : r.due = slot :: due)
    (ran : r.ran = 0) (kept : Kept slot (q.session.office.scheduler.view slot).1 (q.session.office.scheduler.view slot).2 [.round r]) :
    ∃ w g, (q.session.scheduler.claim slot r.now).2 = .step w g := by
  obtain ⟨hdue, hs⟩ := ho.idle rfl ran
  have hmem : slot ∈ m.session.scheduler.due m.session.now := by simp [← hdue, hr]
  have hd := (Scheduler.mem_due_iff.1 hmem).2
  rw [← hs, ← ho.now] at hd
  obtain ⟨at_, -, happ⟩ := Slot.isDue_iff.1 hd
  obtain ⟨w, hw⟩ := FairnessAux.waiting_of_round kept (Slot.appointment_eq_some.1 happ)
  exact ⟨w, _, Scheduler.claim_of_due hd hw.worker⟩

/-- A beat within a round that found something due keeps the tally. -/
theorem tally_on {r r' : Round} (h : Tally p kind rounds later q x) (ha : q.agenda = [x]) (hr : x.round? = some r)
    (hr' : x'.round? = some r') (now : r'.now = r.now) (drive : r'.drive = r.drive)
    (steps : x'.steps = x.steps + q.begun?.isSome.toNat) (busy : x' = .round r' → r'.ran ≠ 0)
    (full : ∀ q', Opened p q' later q x r → q'.session.scheduler.due q'.session.now ≠ []) :
    Tally p kind rounds (q :: later) m x' := by
  have hopens : q.opens = false := opens_of_not_begin ha (begin_ne_of_round hr)
  refine ⟨?_, ?_, fun d hd => absurd hd (begin_ne_of_round hr' d), fun d hd => absurd hd (begin_ne_of_round hr' d), ?_⟩
  · rw [drive_of_round hr', drive, ← drive_of_round hr, countP_of_false hopens]
    exact h.drive
  · rw [steps, h.steps, AccountingAux.countP_cons]
  · intro r'' hr''
    obtain rfl := Option.some.inj (hr'.symm.trans hr'')
    obtain ⟨q', ho⟩ := h.opened r hr
    refine ⟨q', (find_of_false hopens).trans ho.last, now.trans ho.now, ?_, fun hx hran => absurd hran (busy hx),
      fun hnil => absurd hnil (full q' ho)⟩
    rw [countP_of_false hopens, drive]
    exact ho.first

/-- A round that begins is counted. -/
theorem tally_begun {d : Drive} (h : Tally p kind rounds later q (.beginRound d)) (ha : q.agenda = [.beginRound d])
    (left : d.left ≠ 0) (hs : m.session.scheduler = q.session.scheduler) :
    Tally p kind rounds (q :: later) m
      (.round ⟨{ d with left := d.left - 1 }, q.session.now, q.session.scheduler.due q.session.now, 0⟩) := by
  have hopens : q.opens = true := by simp [Machine.opens, ha, left]
  obtain ⟨d', hd, host, hkind, hstarted, hleft⟩ := h.drive
  cases hd
  have hcount : (q :: later).countP Machine.opens = later.countP Machine.opens + 1 := by simp [hopens]
  refine ⟨⟨_, rfl, host, hkind, hstarted, ?_⟩, ?_, by simp, by simp, ?_⟩
  · rw [hcount]
    dsimp only
    omega
  · rw [countP_of_false (by rw [begun_of_not_round ha (by simp)]; rfl), ← h.steps]
    rfl
  · rintro r hr
    cases hr
    refine ⟨q, by simp [hopens], rfl, ?_, fun _ _ => ⟨rfl, hs⟩, fun hnil => ⟨rfl, rfl⟩⟩
    rw [hcount]
    exact fun hone => h.first d rfl (Nat.succ.inj hone)

/-- A round after which another one follows hands its steps on. -/
theorem tally_again {r : Round} (h : Tally p kind rounds later q (.round r)) (ha : q.agenda = [.round r]) (hr : r.due = [])
    (left : r.drive.left ≠ 0) :
    Tally p kind rounds (q :: later) m (.beginRound { r.drive with ran := r.drive.ran + r.ran }) := by
  have hopens : q.opens = false := opens_of_not_begin ha (by simp)
  have hbegun : q.begun?.isSome = false := by simp [Machine.begun?, ha, hr]
  obtain ⟨d', hd, host, hkind, hstarted, hleft⟩ := h.drive
  cases hd
  refine ⟨⟨_, rfl, host, hkind, hstarted, ?_⟩, ?_, ?_, ?_, by simp [Task.round?]⟩
  · rw [countP_of_false hopens]
    exact hleft
  · rw [countP_of_false hbegun]
    exact h.steps
  · rintro d - hnone
    obtain ⟨q', ho⟩ := h.opened r rfl
    rw [countP_of_false hopens, List.countP_eq_zero] at hnone
    exact absurd (List.find?_some ho.last) (hnone q' (List.mem_of_find?_eq_some ho.last))
  · rintro d hd -
    cases hd
    exact left

/-- A beat of a drive keeps the tally. -/
theorem tally_beat (h : Tally p kind rounds later q x) (ha : q.agenda = [x]) (hx : x.isRound = true)
    (kept : ∀ k, Kept k (q.session.office.scheduler.view k).1 (q.session.office.scheduler.view k).2 q.agenda)
    (hb : Beat q.session x x') : Tally p kind rounds (q :: later) ({ q with agenda := [] }.run x) x' := by
  have nobegun (hx : ∀ r, x ≠ .round r) : q.begun?.isSome.toNat = 0 := by rw [begun_of_not_round ha hx]; rfl
  cases hb with
  | driven => cases hx
  | begun left hbar =>
    refine tally_begun h ha left ?_
    simp [Machine.run, Machine.beginRound, left, hbar, Machine.push]
  | @passed r slot due hr hc =>
    have hbegun : q.begun?.isSome.toNat = 0 := by
      cases hcl : (q.session.scheduler.claim slot r.now).2 with
      | step w g => exact absurd hcl (hc w g)
      | skip | vacant => simp [Machine.begun?, ha, hr, hcl]
    have busy : r.ran ≠ 0 := by
      intro hran
      obtain ⟨q', ho⟩ := h.opened r rfl
      obtain ⟨w, g, hstep⟩ := claim_of_idle ho hr hran (ha ▸ kept slot)
      exact hc w g hstep
    refine tally_on h ha rfl rfl rfl rfl ?_ (fun _ => busy) fun q' ho hnil => busy (ho.empty hnil).2
    rw [hbegun]
    rfl
  | @stepped r slot g due w w' outcome hr hc =>
    have hbegun : q.begun?.isSome.toNat = 1 := by simp [Machine.begun?, ha, hr, hc]
    refine tally_on h ha rfl rfl rfl rfl ?_ (by simp) fun q' ho hnil => ?_
    · rw [hbegun]
      rfl
    · have hdue := (ho.idle rfl (ho.empty hnil).2).1
      rw [hr, hnil] at hdue
      cases hdue
  | concluded =>
    refine tally_on h ha rfl rfl rfl rfl ?_ (by simp) fun q' ho hnil => by cases (ho.empty hnil).1
    rw [nobegun (by simp)]
    rfl
  | closed =>
    refine tally_on h ha rfl rfl rfl rfl ?_ (by simp) fun q' ho hnil => by cases (ho.empty hnil).1
    rw [nobegun (by simp)]
    rfl
  | again hr left => exact tally_again h ha hr left

end ReportsAux

/-- What the host is told of a drive that it asked for at `p`, at most so many rounds long; the machines passed since are
`later`. -/
structure Reported (p : Machine) (kind : DriveKind) (rounds : Nat) (later : List Machine) (m : Machine) (d : Drive)
    (wait : Option Nat) : Prop where
  reply : m.reply = some (d.reply wait)
  asked : d.kind = kind
  ran : d.ran = later.countP fun q => q.begun?.isSome
  limit : later.countP Machine.opens ≤ rounds
  /-- The drive had a round, and `q` is where the last one began, unless it may have none. -/
  waits : rounds = 0 ∧ wait = none ∧ later.countP Machine.opens = 0 ∨
    wait = m.session.scheduler.nextWait m.session.now ∧ ∃ q, later.find? Machine.opens = some q ∧
      (later.countP Machine.opens = 1 →
        (d.ran = 0 ↔ p.session.scheduler.due p.session.now = []) ∧ q.session.now = p.session.now) ∧
      (q.session.scheduler.due q.session.now = [] ∨ later.countP Machine.opens = rounds ∨
        kind = .slice ∧ m.session.scheduler.options.timeSlice ≤ m.session.now - p.session.now)

namespace ReportsAux

/-- A drive that has returned without a fault is reported. -/
theorem reported_of_over {q : Machine} {before : List Machine} (idle : m.Idle) (sound : ∀ f, m.reply ≠ some (.failed f))
    (ha : q.agenda = [x]) (known : Tally p kind rounds before q x) (hx : x.isRound = true)
    (hm : m = { q with agenda := [] }.run x) : ∃ d wait, Reported p kind rounds (q :: before) m d wait := by
  obtain ⟨d, hd, host, hkind, hstarted, hleft⟩ := known.drive
  cases x with
  | beginRound d' =>
    cases hd
    obtain ⟨hzero, hreply⟩ := left_of_over hm idle.1 host idle.2
    have hnone : before.countP Machine.opens = 0 := by
      by_contra hsome
      exact known.again d rfl hsome hzero
    have hopens : q.opens = false := by simp [Machine.opens, ha, hzero]
    have hbegun : q.begun?.isSome = false := by rw [begun_of_not_round ha (by simp)]; rfl
    have hcount : (q :: before).countP Machine.opens = 0 := (countP_of_false hopens).trans hnone
    refine ⟨d, none, hreply, hkind, ?_, by rw [hcount]; exact Nat.zero_le _, .inl ⟨?_, rfl, hcount⟩⟩
    · rw [countP_of_false hbegun]
      exact known.steps
    · rw [← hleft, hzero, hnone]
  | round r =>
    cases hd
    obtain ⟨hdue, hs, hgoes, hreply⟩ := due_of_over hm idle.1 host
    obtain ⟨q', ho⟩ := known.opened r rfl
    have hopens : q.opens = false := opens_of_not_begin ha (by simp)
    have hbegun : q.begun?.isSome = false := by simp [Machine.begun?, ha, hdue]
    have hempty : r.ran = 0 ↔ q'.session.scheduler.due q'.session.now = [] :=
      ⟨fun hran => (ho.idle rfl hran).1.symm.trans hdue, fun hnil => (ho.empty hnil).2⟩
    refine ⟨_, _, hreply, hkind, ?_, ?_, .inr ⟨by rw [hs], q', (find_of_false hopens).trans ho.last, ?_, ?_⟩⟩
    · rw [countP_of_false hbegun]
      exact known.steps
    · rw [countP_of_false hopens, ← hleft]
      exact Nat.le_add_left _ _
    · rw [countP_of_false hopens]
      intro hone
      obtain ⟨hran, hsch, hnow⟩ := ho.first hone
      refine ⟨?_, hnow⟩
      rw [← hsch, ← hnow, ← hempty]
      dsimp only
      rw [hran, Nat.zero_add]
    · rw [countP_of_false hopens, ← hempty, hs]
      refine (goesOn_eq_false.1 hgoes).imp_right (Or.imp ?_ ?_)
      · intro hl
        rw [← hleft, hl, Nat.zero_add]
      · rintro ⟨hk, hlate⟩
        exact ⟨hkind ▸ hk, hstarted ▸ hlate⟩
  | conclude r slot g w outcome =>
    have hnil := idle.1
    rw [hm] at hnil
    simp [Machine.run, Machine.conclude, Machine.push] at hnil
  | close r slot c =>
    cases hd
    obtain ⟨reason, hf⟩ := failed_of_over hm idle.1 host
    exact absurd hf (sound _)
  | _ => cases hx

end ReportsAux

open ReportsAux

namespace Machine

namespace Course

variable {later earlier : List Machine} {p m : Machine} {kind : DriveKind} {rounds : Nat}

/-- A drive that returns without a fault counts its steps, and its last round found nothing due unless the drive had no round or no
time left. -/
theorem reported (run : Course (later ++ p :: earlier) m) (asked : p.agenda = [.call (.drive kind rounds) .host])
    (underway : ∀ q ∈ later, q.agenda ≠ []) (calm : ∀ q ∈ later ++ p :: earlier, ∀ k, Calm k q.agenda) (idle : m.Idle)
    (sound : ∀ f, m.reply ≠ some (.failed f)) : ∃ d wait, Reported p kind (p.roundsOf rounds kind) later m d wait := by
  have hdrives : m.Drives (Tally p kind (p.roundsOf rounds kind)) later := by
    refine run.driven (P := fun q => ∀ k, Calm k q.agenda) asked underway
      (fun q hq => not_reenters_of_calm (calm q (by simp [hq]) 0)) (fun q hq => calm q (by simp [hq])) ?_ ?_ ?_
    · exact ⟨⟨_, rfl, rfl, rfl, rfl, by simp⟩, by simp [Task.steps], fun d hd _ => by cases hd; exact ⟨rfl, rfl, rfl⟩, by simp,
        by simp [Task.round?]⟩
    · intro later q t x pre _ _ h ha ht hs _ _
      exact tally_plain h ha ht hs
    · intro later q x x' pre run' hP h ha hx _ hb
      have calmed : ∀ y ∈ later ++ p :: earlier, ∀ k, Calm k y.agenda := by
        intro y hy
        rcases List.mem_append.1 hy with hy | hy
        · exact hP y (.tail _ hy)
        · exact calm y (List.mem_append_right _ hy)
      exact tally_beat h ha hx
        (fun k => ((run'.calmly fun y hy => calmed y hy k).resolve_left (not_crashed_of_agenda ha)).kept) hb
  cases hdrives with
  | crashed hc => exact absurd hc idle.not_crashed
  | underway pre x ha =>
    rw [idle.1] at ha
    exact absurd ha.symm (by simp)
  | returned hl ha hr known hm _ =>
    subst hl
    exact reported_of_over idle sound ha known hr hm

end Course

end Machine

/-! ## What reports say -/

namespace Scheduler

variable {ω : Type} {s : Scheduler ω} {k now : Nat}

theorem options_enlist : (s.enlist k).options = s.options := by
  unfold enlist
  split <;> rfl

theorem options_conclude (g : Nat) (w : ω) (outcome : Outcome) : (s.conclude k g w outcome now).1.options = s.options := by
  unfold conclude
  dsimp only
  split
  · rfl
  · split
    · split <;> split <;> rfl
    · rfl
    · rfl

end Scheduler

/-- A scheduler keeps its tuning. -/
theorem Shift.options_eq {s : Session} {t : Task} {s' : Scheduler Worker} (h : Shift s t s') : s'.options = s.scheduler.options := by
  cases h with
  | start =>
    unfold Scheduler.start
    dsimp only
    split
    · rfl
    · exact Scheduler.options_enlist
  | pause =>
    unfold Scheduler.pause
    split <;> rfl
  | stop =>
    unfold Scheduler.stop
    dsimp only
    split <;> rfl
  | install | seat => exact Scheduler.options_enlist
  | claim =>
    unfold Scheduler.claim
    dsimp only
    split
    · split <;> rfl
    · rfl
  | conclude => exact Scheduler.options_conclude _ _ _
  | _ => rfl

namespace ReportsAux

variable {p m : Machine} {later earlier : List Machine} {k at_ now : Nat}

theorem options_eq (run : Machine.Course (later ++ p :: earlier) m) :
    m.session.scheduler.options = p.session.scheduler.options := by
  refine run.along (I := fun q => q.session.scheduler.options = p.session.scheduler.options) rfl (fun _ hq _ => hq) ?_
  intro past q t rest _ hq _
  exact ({ q with agenda := rest }.run_shift t).options_eq.trans hq

/-- Every slot is kept on a calm course. -/
theorem kept_all (run : Machine.Course earlier m) (calm : ∀ q ∈ earlier, ∀ k, Calm k q.agenda) (alive : ¬ m.Crashed) (k : Nat) :
    Kept k (m.session.scheduler.view k).1 (m.session.scheduler.view k).2 m.agenda :=
  ((run.calmly fun q hq => calm q hq k).resolve_left alive).kept

theorem used_of_appointment {s : Scheduler Worker} (happ : (s.slot k).appointment = some at_) : (s.slot k).phase ≠ .free :=
  fun hf => by cases (Slot.appointment_eq_some.1 happ).symm.trans hf

theorem pending_of_kept {s : Scheduler Worker} {agenda : List Task} (kept : Kept k (s.view k).1 (s.view k).2 agenda)
    (happ : (s.slot k).appointment = some at_) : k ∈ s.pending :=
  List.count_pos_iff.1 (Nat.lt_of_lt_of_eq Nat.zero_lt_one (kept.listed (used_of_appointment happ)).symm)

/-- On a calm course a round finds nothing exactly if nothing is due. -/
theorem due_eq_nil {s : Scheduler Worker} {agenda : List Task} (kept : ∀ k, Kept k (s.view k).1 (s.view k).2 agenda) :
    s.due now = [] ↔ ∀ k, (s.slot k).isDue now = false := by
  constructor
  · intro hnil k
    by_contra hd
    rw [Bool.not_eq_false] at hd
    obtain ⟨at_, -, happ⟩ := Slot.isDue_iff.1 hd
    have hmem := Scheduler.mem_due_iff.2 ⟨pending_of_kept (kept k) happ, hd⟩
    rw [hnil] at hmem
    cases hmem
  · intro hnone
    refine List.eq_nil_iff_forall_not_mem.2 fun k hk => ?_
    rw [Scheduler.mem_due_iff, hnone k] at hk
    cases hk.2

end ReportsAux

/-- Whether a host that sleeps for so long misses nothing, and sleeps as long as it may. -/
structure Machine.Sleeps (m : Machine) (wait : Nat) : Prop where
  most : wait ≤ m.session.scheduler.options.maxWait
  safe : ∀ k t, m.session.now ≤ t → t < m.session.now + wait → (m.session.scheduler.slot k).isDue t = false
  /-- It is the time until the earliest appointment, or the longest wait. -/
  earliest : ∃ k at_, m.session.Place k ∧ (m.session.scheduler.slot k).appointment = some at_ ∧
    (∀ j at', (m.session.scheduler.slot j).appointment = some at' → at_ ≤ at') ∧
    wait = min (at_ - m.session.now) m.session.scheduler.options.maxWait

namespace ReportsAux

variable {m : Machine} {earlier : List Machine}

/-- Where the host can ask something on a calm course, nothing is waited for exactly if no place that it still has is queued. -/
theorem nextWait_none_iff (run : Machine.Course earlier m) (calm : ∀ q ∈ earlier, ∀ k, Calm k q.agenda) (idle : m.Idle) :
    m.session.scheduler.nextWait m.session.now = none ↔
      ∀ k, m.session.Place k → (m.session.scheduler.slot k).appointment = none := by
  rw [Scheduler.nextWait_eq_none]
  constructor
  · intro h k _
    by_contra hsome
    obtain ⟨at_, happ⟩ := Option.ne_none_iff_exists'.1 hsome
    exact hsome (h k (pending_of_kept (kept_all run calm idle.not_crashed k) happ))
  · intro h k _
    by_contra hsome
    obtain ⟨at_, happ⟩ := Option.ne_none_iff_exists'.1 hsome
    exact hsome (h k (run.place_of_used calm idle.not_crashed (.inl idle.1) (used_of_appointment happ)))

/-- Where the host asks something on a calm course, a round finds nothing exactly if no place that the host still has is due. -/
theorem due_nil_iff_place (run : Machine.Course earlier m) (calm : ∀ q ∈ earlier, ∀ k, Calm k q.agenda) {c : Call}
    (asked : m.agenda = [.call c .host]) :
    m.session.scheduler.due m.session.now = [] ↔
      ∀ k, m.session.Place k → (m.session.scheduler.slot k).isDue m.session.now = false := by
  have alive : ¬ m.Crashed := Machine.not_crashed_of_agenda asked
  refine (due_eq_nil (s := m.session.scheduler) (kept_all run calm alive)).trans ⟨fun hnone k _ => hnone k, fun hnone k => ?_⟩
  by_contra hd
  rw [Bool.not_eq_false] at hd
  obtain ⟨at_, -, happ⟩ := Slot.isDue_iff.1 hd
  have hplace := run.place_of_used calm alive (.inr ⟨_, asked⟩) (used_of_appointment happ)
  exact Bool.false_ne_true ((hnone k hplace).symm.trans hd)

/-- A round of a calm course that found nothing began where nothing was due. -/
theorem none_due {p q : Machine} {later : List Machine} (run : Machine.Course (later ++ p :: earlier) m)
    (underway : ∀ q ∈ later, q.agenda ≠ []) (calm : ∀ q ∈ later ++ p :: earlier, ∀ k, Calm k q.agenda) (hq : q ∈ later)
    (hnil : q.session.scheduler.due q.session.now = []) (k : Nat) : (q.session.scheduler.slot k).isDue q.session.now = false := by
  obtain ⟨between, run', hsub⟩ := run.of_later (List.mem_cons_of_mem m hq)
  have calm' : ∀ y ∈ between ++ p :: earlier, ∀ k, Calm k y.agenda := by
    intro y hy
    rcases List.mem_append.1 hy with hy | hy
    · exact calm y (List.mem_append_left _ (hsub hy))
    · exact calm y (List.mem_append_right _ hy)
  have alive : ¬ q.Crashed := fun hc => underway q hq hc.1
  exact (due_eq_nil (kept_all run' calm' alive)).1 hnil k

/-- On a calm course, a wait of the schedule is one that is safe to sleep for. -/
theorem sleeps_of_nextWait (run : Machine.Course earlier m) (calm : ∀ q ∈ earlier, ∀ k, Calm k q.agenda) (idle : m.Idle)
    {wait : Nat} (h : m.session.scheduler.nextWait m.session.now = some wait) : m.Sleeps wait := by
  obtain ⟨k, -, at_, happ, hleast, hwait⟩ := Scheduler.nextWait_eq_some h
  have least (j at' : Nat) (happ' : (m.session.scheduler.slot j).appointment = some at') : at_ ≤ at' :=
    hleast j (pending_of_kept (kept_all run calm idle.not_crashed j) happ') at' happ'
  refine ⟨hwait ▸ Nat.min_le_right _ _, ?_, k, at_, ?_, happ, least, hwait⟩
  · intro j t hnow hlt
    by_contra hd
    rw [Bool.not_eq_false] at hd
    obtain ⟨at', hle, happ'⟩ := Slot.isDue_iff.1 hd
    have hat := least j at' happ'
    have hmin : wait ≤ at_ - m.session.now := hwait ▸ Nat.min_le_left _ _
    omega
  · exact run.place_of_used calm idle.not_crashed (.inl idle.1) (used_of_appointment happ)

theorem report_eq {p : Machine} {kind : DriveKind} {rounds : Nat} {later : List Machine} {d : Drive} {wait : Option Nat}
    (h : Reported p kind rounds later m d wait) (hk : kind ≠ .untilIdle) {r : TickReport} (told : m.reply = some (.report r)) :
    r = ⟨d.ran, wait⟩ := by
  have hreply := told.symm.trans h.reply
  rw [Drive.reply, h.asked] at hreply
  cases kind with
  | untilIdle => exact absurd rfl hk
  | tick | slice => exact Reply.report.inj (Option.some.inj hreply)

theorem sound_of_report {r : TickReport} (told : m.reply = some (.report r)) (f : WorkFault) : m.reply ≠ some (.failed f) := by
  rw [told]
  nofun

end ReportsAux

open ReportsAux

namespace Machine

namespace Course

variable {later earlier : List Machine} {p m : Machine} {rounds : Nat} {r : TickReport}

/-- What the host is told of a round on a calm course is exact, and it is safe to sleep on. The steps are those that were begun, and
there are none exactly if no place of the host was due when it asked. The wait is none exactly if no place of the host is queued
when it gets the report, and otherwise the time until the earliest appointment, or the longest wait if that is less. -/
theorem tick_report (run : Course (later ++ p :: earlier) m) (asked : p.agenda = [.call (.drive .tick rounds) .host])
    (underway : ∀ q ∈ later, q.agenda ≠ []) (calm : ∀ q ∈ later ++ p :: earlier, ∀ k, Calm k q.agenda) (idle : m.Idle)
    (told : m.reply = some (.report r)) :
    (r.ran = later.countP fun q => q.begun?.isSome) ∧
      (r.ran = 0 ↔ ∀ k, p.session.Place k → (p.session.scheduler.slot k).isDue p.session.now = false) ∧
      (r.nextWait = none ↔ ∀ k, m.session.Place k → (m.session.scheduler.slot k).appointment = none) ∧
      ∀ wait, r.nextWait = some wait → m.Sleeps wait := by
  obtain ⟨d, wait, h⟩ := run.reported asked underway calm idle (sound_of_report told)
  obtain rfl := report_eq h nofun told
  obtain ⟨hwait, q, hlast, hone, -⟩ := h.waits.resolve_left fun h => by cases h.1
  have hopened : later.countP Machine.opens = 1 :=
    Nat.le_antisymm h.limit (List.countP_pos_iff.2 ⟨q, List.mem_of_find?_eq_some hlast, List.find?_some hlast⟩)
  refine ⟨h.ran, ?_, ?_, ?_⟩
  · have before : ∀ q ∈ earlier, ∀ k, Calm k q.agenda := fun q hq => calm q (by simp [hq])
    exact (hone hopened).1.trans (due_nil_iff_place run.before before asked)
  · rw [hwait]
    exact nextWait_none_iff run calm idle
  · intro wait' hsome
    exact sleeps_of_nextWait run calm idle (hwait.symm.trans hsome)

/-- What the host is told of a slice on a calm course: the steps are those of all its rounds. A slice that returns with rounds and
time left has found nothing due when its last round began. The wait is none only if no place of the host is queued when it gets
the report, unless the slice may have no round. -/
theorem slice_report (run : Course (later ++ p :: earlier) m) (asked : p.agenda = [.call (.drive .slice rounds) .host])
    (underway : ∀ q ∈ later, q.agenda ≠ []) (calm : ∀ q ∈ later ++ p :: earlier, ∀ k, Calm k q.agenda) (idle : m.Idle)
    (told : m.reply = some (.report r)) :
    (r.ran = later.countP fun q => q.begun?.isSome) ∧
      (r.nextWait = none ↔ p.session.scheduler.options.maxRounds = 0 ∨
        ∀ k, m.session.Place k → (m.session.scheduler.slot k).appointment = none) ∧
      (∀ wait, r.nextWait = some wait → m.Sleeps wait) ∧
      (later.countP Machine.opens < p.session.scheduler.options.maxRounds →
        m.session.now - p.session.now < p.session.scheduler.options.timeSlice →
        ∃ q, later.find? Machine.opens = some q ∧ ∀ k, (q.session.scheduler.slot k).isDue q.session.now = false) := by
  obtain ⟨d, wait, h⟩ := run.reported asked underway calm idle (sound_of_report told)
  obtain rfl := report_eq h nofun told
  refine ⟨h.ran, ?_⟩
  rcases h.waits with ⟨hzero, rfl, -⟩ | ⟨hwait, q, hlast, -, hend⟩
  · have hzero : p.session.scheduler.options.maxRounds = 0 := hzero
    refine ⟨by simp [hzero], nofun, fun hlt => ?_⟩
    rw [hzero] at hlt
    exact absurd hlt (Nat.not_lt_zero _)
  · have hmem := List.mem_of_find?_eq_some hlast
    have some_round : p.session.scheduler.options.maxRounds ≠ 0 := by
      have hpos : 0 < later.countP Machine.opens := List.countP_pos_iff.2 ⟨q, hmem, List.find?_some hlast⟩
      exact Nat.ne_of_gt (Nat.lt_of_lt_of_le hpos h.limit)
    refine ⟨?_, fun wait' hsome => sleeps_of_nextWait run calm idle (hwait.symm.trans hsome), ?_⟩
    · rw [hwait, or_iff_right some_round]
      exact nextWait_none_iff run calm idle
    · intro hrounds htime
      refine ⟨q, hlast, ?_⟩
      rcases hend with hnil | hall | ⟨-, hlate⟩
      · exact none_due run underway calm hmem hnil
      · exact absurd hall (Nat.ne_of_lt hrounds)
      · rw [options_eq run] at hlate
        exact absurd htime (Nat.not_lt.2 hlate)

end Course

end Machine

namespace ReportsAux

/-- A session with some tuning and a place `p`, at which a worker waits that plays some acts, and what came before. -/
def napping (options : SchedulerOptions) (acts : List (Act Call)) : List Machine × Machine :=
  Machine.talk 8 [.place "p", .onPlace "p" (.queue ⟨"w", acts, []⟩ 0)] ([], ⟨.new options, [], none⟩)

/-- Where the host lets it run. -/
def driving (options : SchedulerOptions) (acts : List (Act Call)) (kind : DriveKind) : Machine :=
  Machine.ask (napping options acts).2.session (.drive kind 1)

theorem course_driving (options : SchedulerOptions) (acts : List (Act Call)) (kind : DriveKind)
    (idle : (napping options acts).2.Idle) :
    Machine.Course ((driving options acts kind).step.passed 59 [] ++ driving options acts kind ::
      (napping options acts).2 :: (napping options acts).1) ((driving options acts kind).settle 60) :=
  (((Machine.Course.new options).talk 8 _).ask (.drive kind 1) idle).settle_succ 59 rfl

end ReportsAux

namespace Machine

namespace Course

/-- A worker that wants to go on after 9 milliseconds: the host may sleep for so long. -/
theorem tick_report_later : ∃ (later earlier : List Machine) (p m : Machine), Course (later ++ p :: earlier) m ∧
    p.agenda = [.call (.drive .tick 1) .host] ∧ m.Idle ∧ m.reply = some (.report ⟨1, some 9⟩) ∧
    (later.countP fun q => q.begun?.isSome) = 1 ∧ m.Sleeps 9 := by
  have run := course_driving .standard [⟨[], .ok (.again 9)⟩] .tick (by decide +kernel)
  have idle : ((driving .standard [⟨[], .ok (.again 9)⟩] .tick).settle 60).Idle := by decide +kernel
  have told : ((driving .standard [⟨[], .ok (.again 9)⟩] .tick).settle 60).reply = some (.report ⟨1, some 9⟩) := by
    decide +kernel
  have h := run.tick_report rfl (by decide +kernel) (calm_of_all (by decide +kernel)) idle told
  exact ⟨_, _, _, _, run, rfl, idle, told, h.1.symm, h.2.2.2 9 rfl⟩

/-- A worker that goes on at once and then later: the slice ends with the round that finds nothing due. -/
theorem slice_report_later : ∃ (later earlier : List Machine) (p m : Machine), Course (later ++ p :: earlier) m ∧
    p.agenda = [.call (.drive .slice 1) .host] ∧ m.Idle ∧ m.reply = some (.report ⟨2, some 9⟩) ∧ m.Sleeps 9 ∧
    ∃ q, later.find? Machine.opens = some q ∧ ∀ k, (q.session.scheduler.slot k).isDue q.session.now = false := by
  have run := course_driving .standard [⟨[], .ok (.again 0)⟩, ⟨[], .ok (.again 9)⟩] .slice (by decide +kernel)
  have idle : ((driving .standard [⟨[], .ok (.again 0)⟩, ⟨[], .ok (.again 9)⟩] .slice).settle 60).Idle := by decide +kernel
  have told : ((driving .standard [⟨[], .ok (.again 0)⟩, ⟨[], .ok (.again 9)⟩] .slice).settle 60).reply =
      some (.report ⟨2, some 9⟩) := by decide +kernel
  have h := run.slice_report rfl (by decide +kernel) (calm_of_all (by decide +kernel)) idle told
  exact ⟨_, _, _, _, run, rfl, idle, told, h.2.2.1 9 rfl, h.2.2.2 (by decide +kernel) (by decide +kernel)⟩

/-- A slice that may have no round waits for nothing although a place is queued. -/
theorem exists_starved : ∃ (later earlier : List Machine) (p m : Machine), Course (later ++ p :: earlier) m ∧
    p.agenda = [.call (.drive .slice 1) .host] ∧ (∀ q ∈ later ++ p :: earlier, ∀ k, Calm k q.agenda) ∧ m.Idle ∧
    m.reply = some (.report ⟨0, none⟩) ∧ m.session.Place 0 ∧ (m.session.scheduler.slot 0).appointment = some 0 := by
  have run := course_driving ⟨50, 100, 0⟩ [⟨[], .ok .finished⟩] .slice (by decide +kernel)
  exact ⟨_, _, _, _, run, rfl, calm_of_all (by decide +kernel), by decide +kernel, by decide +kernel,
    .inl ⟨"p", by decide +kernel⟩, by decide +kernel⟩

end Course

end Machine

end LiveHighlight
