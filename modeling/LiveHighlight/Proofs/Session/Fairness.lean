import LiveHighlight.Proofs.Session.SlotInvariants
import LiveHighlight.Proofs.Session.RoundProgress

/-!
# Fairness

A slot that is due when another one begins a step has its own step before the other one begins its next (`Course.fair`). Whatever
arms the other slot again gives it an appointment that is not earlier and the next number, so the one that waits is ahead of it
(`Ahead`): a round begun later has both of them in this order, and a round that was begun before no longer has the other one.
Nothing is said about the end of rounds, so it makes no difference whether a fatal fault cuts one short.
-/

namespace LiveHighlight

theorem Slot.appointment_eq_some {ω : Type} {s : Slot ω} {at_ : Nat} : s.appointment = some at_ ↔ s.phase = .queued at_ := by
  unfold Slot.appointment
  split <;> simp_all

theorem Slot.isDue_iff {ω : Type} {s : Slot ω} {now : Nat} : s.isDue now = true ↔ ∃ at_ ≤ now, s.appointment = some at_ := by
  unfold Slot.isDue Slot.appointment
  split <;> simp_all

namespace Scheduler

variable {ω : Type} {s : Scheduler ω} {k now : Nat}

/-! ## The order of a round -/

/-- A slot comes before another one in a round if its appointment is earlier, or the same and it was armed first. -/
theorem before_iff {a b : Nat} : s.before a b = true ↔
    (s.slot a).appointment.getD 0 < (s.slot b).appointment.getD 0 ∨
      (s.slot a).appointment.getD 0 = (s.slot b).appointment.getD 0 ∧ (s.slot a).seq ≤ (s.slot b).seq := by
  simp [before]

/-- A round sees to the slots that are due in the order of their appointments. -/
theorem pairwise_due (s : Scheduler ω) (now : Nat) : (s.due now).Pairwise fun a b => s.before a b = true := by
  refine List.pairwise_mergeSort ?_ ?_ _
  · intro a b c hab hbc
    rw [before_iff] at *
    omega
  · intro a b
    rw [Bool.or_eq_true, before_iff, before_iff]
    omega

theorem mem_due_iff : k ∈ s.due now ↔ k ∈ s.pending ∧ (s.slot k).isDue now = true := by
  simp [due, List.mem_mergeSort]

theorem nodup_due (h : s.pending.Nodup) : (s.due now).Nodup :=
  (List.mergeSort_perm _ _).nodup_iff.2 (h.filter _)

/-- A slot that is due holds a worker that a round takes out. -/
theorem claim_of_due {w : ω} (hd : (s.slot k).isDue now = true) (hw : (s.slot k).worker = some w) :
    (s.claim k now).2 = .step w (s.slot k).generation := by
  simp [claim, hd, hw]

end Scheduler

/-! ## Arming -/

namespace FairnessAux

open Scheduler

variable {s : Session} {t : Task} {s' : Scheduler Worker} {k at_ : Nat}

/-- How a slot came to wait for an appointment: it waited for it before, or it was armed, last of all, and by nothing but a
worker that takes the place of another one for earlier than now. -/
inductive Armed (s : Session) (t : Task) (k at_ seq next : Nat) : Prop where
  | before (hp : (s.scheduler.slot k).phase = .queued at_) (hs : seq = (s.scheduler.slot k).seq)
  | anew (hs : seq = s.scheduler.nextSeq) (hn : s.scheduler.nextSeq < next)
      (hat : (∀ w, t ≠ .seat k w at_) → s.now ≤ at_)

/-- An appointment at the end of a step is given only to a slot that was not armed meanwhile. -/
theorem armed_again {phase : SlotPhase} {next seq at' : Nat} (hnow : s.now ≤ at')
    (hphase : phase = if (s.scheduler.slot k).phase = .running then .queued at' else (s.scheduler.slot k).phase)
    (hseq : seq = if (s.scheduler.slot k).phase = .running then s.scheduler.nextSeq else (s.scheduler.slot k).seq)
    (hnext : next = if (s.scheduler.slot k).phase = .running then s.scheduler.nextSeq + 1 else s.scheduler.nextSeq)
    (hp : phase = .queued at_) : Armed s t k at_ seq next := by
  by_cases hrun : (s.scheduler.slot k).phase = .running
  · rw [if_pos hrun] at hphase hseq hnext
    obtain rfl := SlotPhase.queued.inj (hphase.symm.trans hp)
    exact .anew hseq (hnext ▸ Nat.lt_succ_self _) fun _ => hnow
  · rw [if_neg hrun] at hphase hseq
    exact .before (hphase.symm.trans hp) hseq

/-- A shift arms no slot in any other way. -/
theorem armed (h : Shift s t s') (hp : (s'.slot k).phase = .queued at_) : Armed s t k at_ (s'.slot k).seq s'.nextSeq := by
  have hk : s.scheduler.Knows k := by
    have hk' : s'.Knows k := knows_of_phase (by rw [hp]; simp)
    by_contra hk
    cases h with
    | add label =>
      have hslot := congrArg (fun v => v.1.phase) (view_add (s := s.scheduler) (k := k) label)
      rw [Scheduler.view, hp] at hslot
      split at hslot
      · cases hslot
      · simp [Scheduler.view, slot_of_not_knows hk, Slot.fresh] at hslot
    | _ => exact hk (by simpa [Knows] using hk')
  have hat := h.shiftAt hk
  generalize hv : s'.view k = v at hat
  generalize s'.nextSeq = next at hat ⊢
  have hslot : s'.slot k = v.1 := congrArg Prod.fst hv
  rw [hslot] at hp ⊢
  cases hat with
  | same | evict | restore | delist => exact .before hp rfl
  | start | install =>
    obtain rfl := SlotPhase.queued.inj hp
    exact .anew rfl (Nat.lt_succ_self _) fun _ => Nat.le_add_right _ _
  | seat =>
    obtain rfl := SlotPhase.queued.inj hp
    exact .anew rfl (Nat.lt_succ_self _) fun hne => absurd rfl (hne _)
  | @again _ _ delay | @takeOver _ _ _ delay => exact armed_again (Nat.le_add_right s.now delay) rfl rfl rfl hp
  | pause | stop | vacate | lend | finish | fail => cases hp

/-! ## Rounds -/

variable {past : List Machine} {m : Machine}

/-- The number with which a waiting slot was armed was given before. -/
theorem seq_lt (run : Machine.Course past m) (hp : (m.session.scheduler.slot k).phase = .queued at_) :
    (m.session.scheduler.slot k).seq < m.session.scheduler.nextSeq := by
  induction run with
  | new options => simp [Session.new, Scheduler.new, Scheduler.slot, Slot.fresh] at hp
  | ask c _ _ ih => exact ih hp
  | @step _ q t rest _ _ ih =>
    have shift := { q with agenda := rest }.run_shift t
    cases armed shift hp with
    | before hp' hs =>
      rw [hs]
      exact Nat.lt_of_lt_of_le (ih hp') (shift.nextSeq_le)
    | anew hs hn =>
      rw [hs]
      exact hn

/-- Where a round is to begin on a calm course, no slot is twice on the list of pending ones. -/
theorem pending_nodup {o : Office} {d : Drive} (hi : ∀ k, Calmly k o [.beginRound d]) : o.scheduler.pending.Nodup := by
  refine List.nodup_iff_count.2 ?_
  intro k
  have hk := (hi k).kept
  by_cases hf : (o.scheduler.view k).1.phase = .free
  · rcases hk.unlisted hf with hn | ⟨r, c, hx⟩
    · exact Nat.le_trans (Nat.le_of_eq hn) (Nat.zero_le 1)
    · cases List.mem_singleton.1 hx
  · exact Nat.le_of_eq (hk.listed hf)

/-- A round on a calm course sees to no slot twice. -/
theorem nodup_round (run : Machine.Course past m) (calm : ∀ p ∈ past, ∀ k, Calm k p.agenda) {x : Task} {r : Round}
    (hx : x ∈ m.agenda) (hr : x.round? = some r) : r.due.Nodup := by
  induction run generalizing x r with
  | new options => cases hx
  | ask c _ _ _ =>
    obtain rfl := List.mem_singleton.1 hx
    cases hr
  | @step _ q t rest run ha ih =>
    have ih {x : Task} {r : Round} (hx : x ∈ t :: rest) (hr : x.round? = some r) : r.due.Nodup :=
      ih (fun p hp => calm p (.tail _ hp)) (ha ▸ hx) hr
    rcases run.advance ha with hc | ⟨new, hn, -, -, hbeat⟩
    · rw [hc.1] at hx
      cases hx
    · rw [hn] at hx
      rcases List.mem_append.1 hx with hx | hx
      · have hround : x.isRound = true := by
          cases x with
          | round | conclude | close => rfl
          | _ => cases hr
        have hb := hbeat x hx hround
        cases hb with
        | driven | again => cases hr
        | begun =>
          cases hr
          have hi (k : Nat) := (run.calmly fun p hp => calm p (.tail _ hp) k).resolve_left (Machine.not_crashed_of_agenda ha)
          have hrest : rest = [] := by
            have ho := (hi 0).orderly
            rw [ha] at ho
            exact ho.alone rfl
          subst hrest
          exact nodup_due (pending_nodup (o := q.session.office) fun k => ha ▸ hi k)
        | passed hdue | stepped hdue =>
          cases hr
          exact (List.nodup_cons.1 (hdue ▸ ih (.head _) rfl)).2
        | concluded | closed =>
          cases hr
          have hdue := ih (.head _) rfl
          exact hdue
      · exact ih (.tail _ hx) hr

end FairnessAux

/-! ## Waiting for a turn -/

/-- Whether the first task starts or pauses a slot, stops it, or puts a worker into it. -/
def Machine.Touches (m : Machine) (k : Nat) : Prop :=
  match m.agenda with
  | .call c _ :: _ => m.session.Arms k c
  | .stop slot :: _ | .install slot _ _ :: _ | .seat slot _ _ :: _ => slot = k
  | _ => False

instance (m : Machine) (k : Nat) : Decidable (m.Touches k) := by
  unfold Machine.Touches
  split <;> infer_instance

namespace FairnessAux

open Scheduler

/-- A slot with the view `v`, whose worker waits for `at_`, is ahead of slot `a`: the other slot is armed behind it, if at all, and
a round under way comes to the other slot after it, if at all. -/
structure Ahead (a b at_ : Nat) (v : Slot Worker × Nat) (m : Machine) : Prop where
  view : m.session.scheduler.view b = v
  seq : v.1.seq < m.session.scheduler.nextSeq
  behind : ∀ at', (m.session.scheduler.slot a).phase = .queued at' →
    at_ ≤ at' ∧ v.1.seq < (m.session.scheduler.slot a).seq
  round : ∀ x ∈ m.agenda, ∀ r, x.round? = some r → ∀ l l', r.due = l ++ a :: l' → at_ ≤ r.now ∧ b ∈ l
  /-- Its step is not under way. -/
  apart : ∀ x ∈ m.agenda, x.isRound = true → x.slot? ≠ some b

variable {a b at_ now : Nat} {v : Slot Worker × Nat} {w : Worker} {s : Session} {s' : Scheduler Worker} {t : Task} {m : Machine}

theorem isRound_of_round {x : Task} {r : Round} (h : x.round? = some r) : x.isRound = true := by
  cases x with
  | round | conclude | close => rfl
  | _ => cases h

/-- A round that begins has the slot that is armed first before the other one. -/
theorem ahead_due {sch : Scheduler Worker} (hne : b ≠ a) (hp : b ∈ sch.pending) (hb : (sch.slot b).phase = .queued at_)
    (behind : ∀ at', (sch.slot a).phase = .queued at' → at_ ≤ at' ∧ (sch.slot b).seq < (sch.slot a).seq) {l l' : List Nat}
    (hdue : sch.due now = l ++ a :: l') : at_ ≤ now ∧ b ∈ l := by
  have ha : a ∈ sch.due now := by simp [hdue]
  obtain ⟨at', hat, happ⟩ := Slot.isDue_iff.1 (mem_due_iff.1 ha).2
  have hlt := behind at' (Slot.appointment_eq_some.1 happ)
  have hbapp : (sch.slot b).appointment = some at_ := Slot.appointment_eq_some.2 hb
  have hle : at_ ≤ now := Nat.le_trans hlt.1 hat
  have hmem : b ∈ sch.due now := mem_due_iff.2 ⟨hp, Slot.isDue_iff.2 ⟨at_, hle, hbapp⟩⟩
  rw [hdue, List.mem_append, List.mem_cons] at hmem
  rcases hmem with hmem | rfl | hmem
  · exact ⟨hle, hmem⟩
  · exact absurd rfl hne
  · -- the order of the round would have the other slot first
    have hpair := sch.pairwise_due now
    rw [hdue] at hpair
    have hbefore := (List.pairwise_cons.1 (List.pairwise_append.1 hpair).2.1).1 b hmem
    rw [before_iff, happ, hbapp] at hbefore
    simp only [Option.getD_some] at hbefore
    omega

/-- A shift that has nothing to do with a slot, and does not take its worker out, leaves it as it is. -/
theorem view_untouched (h : Shift s t s') (hw : (s.scheduler.slot b).worker = some w)
    (hcall : ∀ c asker, t = .call c asker → ¬ s.Arms b c) (hslot : t.slot? ≠ some b)
    (hclaim : ∀ r due, t = .round r → r.due = b :: due → ∀ w g, (s.scheduler.claim b r.now).2 ≠ .step w g) :
    s'.view b = s.scheduler.view b := by
  have hat := h.shiftAt (knows_of_worker hw)
  generalize s'.view b = v at hat ⊢
  generalize s'.nextSeq = next at hat
  cases hat with
  | same => rfl
  | start _ harms | pause harms => exact absurd harms (hcall _ _ rfl)
  | vacate _ _ hnone => cases hw.symm.trans hnone
  | lend hr hd hw' => exact absurd (claim_of_due hd hw') (hclaim _ _ rfl hr _ _)
  | _ => exact absurd rfl hslot

/-- What a waiting slot is, as long as nothing is done to it. -/
structure Waiting (b at_ : Nat) (w : Worker) (v : Slot Worker × Nat) : Prop where
  phase : v.1.phase = .queued at_
  worker : v.1.worker = some w
  listed : v.2 ≠ 0

/-- A round that comes to a waiting slot that is due takes its worker out. -/
theorem begins_of_round {q : Machine} {r : Round} {due : List Nat} {rest : List Task} (hv : Waiting b at_ w (q.session.scheduler.view b))
    (ha : q.agenda = .round r :: rest) (hr : r.due = b :: due) (hat : at_ ≤ r.now) : q.Begins b w :=
  Machine.begins_iff.2 ⟨r, due, rest, _, ha, hr,
    claim_of_due (Slot.isDue_iff.2 ⟨at_, hat, Slot.appointment_eq_some.2 hv.phase⟩) hv.worker⟩

variable {past : List Machine} {q : Machine} {rest : List Task}

/-- A round that goes on, or begins, comes to the slot that is ahead first. -/
theorem ahead_beat (hne : b ≠ a) (hv : Waiting b at_ w (q.session.scheduler.view b)) (waits : ¬ q.Begins b w)
    (ha : q.agenda = t :: rest) (h : Ahead a b at_ v q) {x : Task} (hb : Beat q.session t x) {r : Round}
    (hr : x.round? = some r) {l l' : List Nat} (hdue : r.due = l ++ a :: l') : at_ ≤ r.now ∧ b ∈ l := by
  have hround := h.round t (ha ▸ .head _)
  have shortened {r' : Round} {slot : Nat} {due : List Nat} (ht : t = .round r') (hr' : r'.due = slot :: due)
      (hdue : due = l ++ a :: l') : at_ ≤ r'.now ∧ b ∈ l := by
    subst ht
    obtain ⟨hat, hb⟩ := hround r' rfl (slot :: l) l' (by rw [hr', hdue]; rfl)
    rcases List.mem_cons.1 hb with rfl | hb
    · exact absurd (begins_of_round hv ha hr' hat) waits
    · exact ⟨hat, hb⟩
  cases hb with
  | driven | again => cases hr
  | begun =>
    cases hr
    refine ahead_due hne (List.count_pos_iff.1 (Nat.pos_of_ne_zero hv.listed)) hv.phase ?_ hdue
    intro at' hp
    have hbehind := h.behind at' hp
    rw [← h.view] at hbehind
    exact hbehind
  | @passed r' _ _ hr' | @stepped r' _ _ _ _ _ _ hr' =>
    cases hr
    have hfound := shortened rfl hr' hdue
    exact hfound
  | concluded =>
    cases hr
    exact hround _ rfl l l' hdue
  | @closed r' =>
    cases hr
    exact hround r' rfl l l' hdue

/-- A slot that nothing touches, and whose worker is not taken out for a step, stays as it is, and no step of it gets under way. -/
theorem waiting_step (run : Machine.Course past q) (ha : q.agenda = t :: rest) (hw : (q.session.scheduler.slot b).worker = some w)
    (untouched : ¬ q.Touches b) (waits : ¬ q.Begins b w) (apart : ∀ x ∈ q.agenda, x.isRound = true → x.slot? ≠ some b) :
    ({ q with agenda := rest }.run t).session.scheduler.view b = q.session.scheduler.view b ∧
      ∀ x ∈ ({ q with agenda := rest }.run t).agenda, x.isRound = true → x.slot? ≠ some b := by
  have hclaim : ∀ r due, t = .round r → r.due = b :: due → ∀ w g, (q.session.scheduler.claim b r.now).2 ≠ .step w g := by
    rintro r due rfl hr w' g hs
    refine waits (Machine.begins_iff.2 ⟨r, due, rest, g, ha, hr, ?_⟩)
    rw [hs, Option.some.inj ((claim_step hs).2.1.symm.trans hw)]
  have hslot : t.slot? ≠ some b := by
    intro hs
    unfold Machine.Touches at untouched
    rw [ha] at untouched
    cases t with
    | stop | install | seat => exact untouched (Option.some.inj hs)
    | conclude | close => exact apart _ (ha ▸ .head _) rfl hs
    | _ => cases hs
  refine ⟨view_untouched ({ q with agenda := rest }.run_shift t) hw ?_ hslot hclaim, ?_⟩
  · rintro c asker rfl harms
    unfold Machine.Touches at untouched
    rw [ha] at untouched
    exact untouched harms
  · rcases run.advance ha with hc | ⟨new, hn, -, -, hbeat⟩
    · simp [hc.1]
    · rw [hn]
      intro x hx hr hs
      rcases List.mem_append.1 hx with hx | hx
      · cases hbeat x hx hr with
        | @stepped r' slot g due w₁ w₂ outcome hr' hc =>
          obtain rfl := Option.some.inj hs
          exact hclaim r' due rfl hr' _ _ hc
        | concluded => exact hslot hs
        | _ => cases hs
      · exact apart x (ha ▸ .tail _ hx) hr hs

/-- A slot stays ahead of another one until its worker is taken out for a step. -/
theorem ahead_step (run : Machine.Course past q) (ha : q.agenda = t :: rest) (hi : ∀ k, Calmly k q.session.office q.agenda)
    (hne : b ≠ a) (hv : Waiting b at_ w v) (hnow : at_ ≤ q.session.now) (untouched : ¬ q.Touches b) (waits : ¬ q.Begins b w)
    (h : Ahead a b at_ v q) :
    ({ q with agenda := rest }.run t).Crashed ∨ Ahead a b at_ v ({ q with agenda := rest }.run t) := by
  rcases run.advance ha with hc | ⟨new, hn, -, shift, hbeat⟩
  · exact .inl hc
  have hvq : Waiting b at_ w (q.session.scheduler.view b) := h.view ▸ hv
  obtain ⟨hview, hapart⟩ := waiting_step run ha hvq.worker untouched waits h.apart
  refine .inr ⟨hview.trans h.view, Nat.lt_of_lt_of_le h.seq (shift.nextSeq_le), ?_, ?_, hapart⟩
  · intro at' hp
    cases armed shift hp with
    | before hp' hs =>
      rw [hs]
      exact h.behind at' hp'
    | anew hs _ hat =>
      rw [hs]
      refine ⟨Nat.le_trans hnow (hat ?_), h.seq⟩
      -- on a calm course no worker takes the place of another one
      rintro w' rfl
      rcases (ha ▸ (hi a).kept.stage).head (by simp [Task.settles]) with ⟨_, _, hx, -⟩ | ⟨_, _, hx, -⟩ <;> cases hx
  · rw [hn]
    intro x hx r hr l l' hdue
    rcases List.mem_append.1 hx with hx | hx
    · exact ahead_beat hne hvq waits ha h (hbeat x hx (isRound_of_round hr)) hr hdue
    · exact h.round x (ha ▸ .tail _ hx) r hr l l' hdue

theorem scheduler_round (m : Machine) {r : Round} {slot : Nat} {due : List Nat} (hr : r.due = slot :: due) :
    (m.round r).session.scheduler = (m.session.scheduler.claim slot r.now).1 := by
  unfold Machine.round
  rw [hr]
  dsimp only
  split
  · next heq =>
    rw [ShiftAux.scheduler_work, heq]
    rfl
  · next heq =>
    rw [heq]
    rfl

/-- A slot is ahead of another one once the other one has begun a step. -/
theorem ahead_begun (run : Machine.Course past q) (calm : ∀ p ∈ past, ∀ k, Calm k p.agenda) {w' : Worker}
    (begins : q.Begins a w') (ha : q.agenda = t :: rest) (hne : b ≠ a)
    (hb : (q.session.scheduler.slot b).phase = .queued at_) :
    ({ q with agenda := rest }.run t).Crashed ∨
      Ahead a b at_ (q.session.scheduler.view b) ({ q with agenda := rest }.run t) := by
  obtain ⟨r, due, rest', g, ha', hr, hc⟩ := Machine.begins_iff.1 begins
  obtain ⟨rfl, rfl⟩ := List.cons.inj (ha.symm.trans ha')
  have ho := ((run.calmly fun p hp => calm p hp 0).resolve_left (Machine.not_crashed_of_agenda ha)).orderly
  have hrest : rest = [] := Orderly.alone (ha ▸ ho) rfl
  subst hrest
  have hdue : (a :: due).Nodup := hr ▸ nodup_round run calm (x := .round r) (by simp [ha]) rfl
  have hfirst : a ∉ due := (List.nodup_cons.1 hdue).1
  have hk : q.session.scheduler.Knows a := knows_of_worker (claim_step hc).2.1
  rcases run.advance ha with hcr | ⟨new, hn, -, shift, hbeat⟩
  · exact .inl hcr
  have hs : ({ q with agenda := [] }.run (.round r)).session.scheduler = (q.session.scheduler.claim a r.now).1 :=
    scheduler_round { q with agenda := [] } hr
  have hview : (q.session.scheduler.claim a r.now).1.view b = q.session.scheduler.view b := view_claim_ne hne _
  -- what is left of the round no longer has the slot that has begun
  have left {x : Task} (hx : x ∈ new) (hround : x.isRound = true) :
      ∃ w₂ outcome, x = .conclude { r with due } a g w₂ outcome := by
    cases hbeat x hx hround with
    | passed hr₂ hc₂ =>
      obtain ⟨rfl, rfl⟩ := List.cons.inj (hr.symm.trans hr₂)
      exact absurd hc (hc₂ _ _)
    | stepped hr₂ hc₂ =>
      obtain ⟨rfl, rfl⟩ := List.cons.inj (hr.symm.trans hr₂)
      obtain ⟨rfl, rfl⟩ := Claim.step.inj (hc.symm.trans hc₂)
      exact ⟨_, _, rfl⟩
    | again hr₂ => cases hr.symm.trans hr₂
  rw [List.append_nil] at hn
  refine .inr ⟨hs ▸ hview, ?_, ?_, ?_, ?_⟩
  · exact Nat.lt_of_lt_of_le (seq_lt run hb) (shift.nextSeq_le)
  · intro at' hp
    have hrun : ((q.session.scheduler.claim a r.now).1.view a).1.phase = .running := by
      simp [view_claim hk, (claim_step hc).1, (claim_step hc).2.1]
    rw [hs] at hp
    cases hrun.symm.trans hp
  · rw [hn]
    intro x hx r' hr' l l' hdue'
    obtain ⟨w₂, outcome, rfl⟩ := left hx (isRound_of_round hr')
    cases hr'
    refine absurd ?_ hfirst
    rw [show due = l ++ a :: l' from hdue']
    simp
  · rw [hn]
    intro x hx hround hslot
    obtain ⟨w₂, outcome, rfl⟩ := left hx hround
    exact hne (Option.some.inj hslot).symm

/-- What is known of a calm course stays known. -/
theorem calmly_step (run : Machine.Course past q) (ha : q.agenda = t :: rest) (calm : ∀ k, Calm k q.agenda)
    (hi : ∀ k, Calmly k q.session.office q.agenda) : ({ q with agenda := rest }.run t).Crashed ∨
      ∀ k, Calmly k ({ q with agenda := rest }.run t).session.office ({ q with agenda := rest }.run t).agenda := by
  rcases run.advance ha with hc | ⟨new, hn, turn, -, -⟩
  · exact .inl hc
  · rw [hn]
    exact .inr fun k => turn.calmly (ha ▸ calm k) (ha ▸ hi k)

/-- A slot that waits for an appointment when a round comes to another one holds a worker. -/
theorem waiting_of_round {o : Office} {r : Round} (hk : Kept b (o.scheduler.view b).1 (o.scheduler.view b).2 [.round r])
    (hb : (o.scheduler.slot b).phase = .queued at_) : ∃ w, Waiting b at_ w (o.scheduler.view b) := by
  have hfree : (o.scheduler.view b).1.phase ≠ .free := by
    intro hf
    cases hb.symm.trans hf
  have hn : (o.scheduler.view b).2 ≠ 0 := by
    rw [hk.listed hfree]
    exact Nat.one_ne_zero
  cases hw : (o.scheduler.slot b).worker with
  | some w => exact ⟨w, hb, hw, hn⟩
  | none =>
    obtain ⟨r', w, outcome, hx⟩ := hk.used hfree hw
    cases List.mem_singleton.1 hx

end FairnessAux

open FairnessAux

namespace Machine

namespace Course

variable {later earlier : List Machine} {p m : Machine}

/-- On a calm course whose clock is never before the moment at which slot `a` begins a step, another slot `b` that is due then and
to which nothing is done has a step of its worker begun before `a` begins another one. -/
theorem fair (run : Course (later ++ p :: earlier) m) (calm : ∀ q ∈ later ++ p :: earlier, ∀ k, Calm k q.agenda)
    (clock : ∀ q ∈ later, p.session.now ≤ q.session.now) {a b at_ : Nat} (hne : b ≠ a) {w w' : Worker}
    (begins : p.Begins a w) (queued : (p.session.scheduler.slot b).phase = .queued at_) (due : at_ ≤ p.session.now)
    (untouched : ∀ q ∈ later, ¬ q.Touches b) (again : m.Begins a w') :
    ∃ wb, (p.session.scheduler.slot b).worker = some wb ∧ ∃ q ∈ later, q.Begins b wb := by
  have calmly (k : Nat) : Calmly k p.session.office p.agenda := by
    obtain ⟨r, due, rest, g, ha, -⟩ := begins_iff.1 begins
    exact (run.before.calmly fun q hq => calm q (by simp [hq]) k).resolve_left (not_crashed_of_agenda ha)
  obtain ⟨r, dues, rest, g, ha, -⟩ := begins_iff.1 begins
  have hrest : rest = [] := Orderly.alone (ha ▸ (calmly 0).orderly) rfl
  subst hrest
  obtain ⟨wb, hv⟩ := waiting_of_round (o := p.session.office) (ha ▸ (calmly b).kept) queued
  refine ⟨wb, hv.worker, ?_⟩
  by_contra hnone
  have waits : ∀ q ∈ later, ¬ q.Begins b wb := fun q hq hb => hnone ⟨q, hq, hb⟩
  -- as long as `b` waits it is ahead of `a`
  have hahead : m.Crashed ∨ (∀ k, Calmly k m.session.office m.agenda) ∧
      Ahead a b at_ (p.session.scheduler.view b) m := by
    refine run.after (P := fun q => (∀ k, Calm k q.agenda) ∧ at_ ≤ q.session.now ∧ ¬ q.Touches b ∧ ¬ q.Begins b wb)
      (I := fun q => q.Crashed ∨ (∀ k, Calmly k q.session.office q.agenda) ∧ Ahead a b at_ (p.session.scheduler.view b) q)
      ha ?_ ?_ ?_ ?_
    · intro q hq
      exact ⟨calm q (by simp [hq]), Nat.le_trans due (clock q hq), untouched q hq, waits q hq⟩
    · rcases ahead_begun run.before (fun q hq => calm q (by simp [hq])) begins ha hne queued with hc | h
      · exact .inl hc
      · exact (calmly_step run.before ha (calm p (by simp)) calmly).imp_right fun hi => ⟨hi, h⟩
    · rintro past q c - - hi idle
      obtain ⟨hi, h⟩ := hi.resolve_left idle.not_crashed
      refine .inr ⟨fun k => Calmly.call (idle.1 ▸ hi k) c, h.view, h.seq, h.behind, ?_, ?_⟩
      · intro x hx r hr
        cases List.mem_singleton.1 hx
        cases hr
      · intro x hx hr
        cases List.mem_singleton.1 hx
        cases hr
    · rintro past q t rest run' ⟨hcalm, hnow, hu, hw⟩ hi ha'
      obtain ⟨hi, h⟩ := hi.resolve_left (not_crashed_of_agenda ha')
      rcases ahead_step run' ha' hi hne hv hnow hu hw h with hc | h
      · exact .inl hc
      · exact (calmly_step run' ha' hcalm hi).imp_right fun hi => ⟨hi, h⟩
  obtain ⟨r', dues', rest', g', ha', hr', -⟩ := begins_iff.1 again
  obtain ⟨-, h⟩ := hahead.resolve_left (not_crashed_of_agenda ha')
  exact absurd (h.round (.round r') (by simp [ha']) r' rfl [] dues' hr').2 List.not_mem_nil

end Course

end Machine

namespace FairnessAux

/-- Two places whose workers wait; the first worker starts its place in its step and wants to go on later. -/
def together : List Call :=
  [.place "a", .place "b",
    .onPlace "a" (.queue ⟨"v", [⟨[.advance 3, .onPlace "a" (.start 0)], .ok (.again 9)⟩], []⟩ 0),
    .onPlace "b" (.queue ⟨"w", [⟨[], .ok (.again 9)⟩], []⟩ 0)]

/-- The machines up to where both workers wait. -/
def waiting : List Machine × Machine := Machine.talk 8 together ([], ⟨.new .standard, [], none⟩)

/-- Where the first worker begins its first step. -/
def first : Machine := ⟨waiting.2.session, [.round ⟨⟨.host, .tick, 0, 0, 0⟩, 0, [0, 1], 0⟩], none⟩

theorem settle_first : (Machine.ask waiting.2.session (.drive .tick 1)).settle 2 = first := by
  have hdue : waiting.2.session.scheduler.due 0 = [0, 1] := by
    have hpending : waiting.2.session.scheduler.pending.filter
        (fun k => (waiting.2.session.scheduler.slot k).isDue 0) = [0, 1] := by decide +kernel
    rw [Scheduler.due, hpending]
    exact List.mergeSort_of_pairwise (by decide +kernel)
  have hnow : waiting.2.session.now = 0 := by decide +kernel
  have hbarred : waiting.2.session.scheduler.anyBarred = false := by decide +kernel
  simp [first, Machine.settle, Machine.step, Machine.ask, Machine.run, Machine.perform, Machine.roundsOf, Machine.beginRound,
    Machine.push, hdue, hnow, hbarred]

/-- Where it begins its second step. -/
def second : Machine := (Machine.ask (first.settle 30).session (.drive .tick 1)).settle 2

end FairnessAux

namespace Machine

namespace Course

/-- A worker that starts its own place in its step does not get ahead of another one. -/
theorem fair_started : ∃ (later earlier : List Machine) (p m : Machine), Course (later ++ p :: earlier) m ∧
    (∃ w, p.Begins 0 w) ∧ (∃ w, m.Begins 0 w) ∧
    ∃ wb, (p.session.scheduler.slot 1).worker = some wb ∧ ∃ q ∈ later, q.Begins 1 wb := by
  have waited : Course waiting.1 waiting.2 := (Course.new .standard).talk 8 together
  have begun := (waited.ask (.drive .tick 1) (by decide +kernel)).settle 2
  rw [settle_first] at begun
  have run := ((begun.settle_succ 29 (by decide +kernel)).ask (.drive .tick 1) (by decide +kernel)).settle 2
  rw [← List.cons_append, passed_append] at run
  obtain ⟨w, hw⟩ : ∃ w, first.Begins 0 w := begins_of_begun (by decide +kernel)
  obtain ⟨w', hw'⟩ : ∃ w, second.Begins 0 w := begins_of_begun (by decide +kernel)
  refine ⟨_, _, first, second, run, ⟨w, hw⟩, ⟨w', hw'⟩, ?_⟩
  exact run.fair (calm_of_all (by decide +kernel)) (by decide +kernel) (by decide) hw (by decide +kernel) (Nat.zero_le _)
    (by decide +kernel) hw'

end Course

end Machine

end LiveHighlight
