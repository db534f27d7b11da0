import LiveHighlight.Proofs.Session.Starting

/-!
# The order in which slots were armed

On every course, the list of pending slots names none twice (`Course.pending_nodup`), and slots that wait were armed one after
the other, so no two of them have the same number (`Course.seq_ne`). What was armed after some moment waits for no earlier time
and has a higher number than everything that waited then (`Since`), as long as the clock does not go back behind that moment. So
slots that were due then and are left alone (`Course.left_alone`) come first in a round that begins later, in their order
(`Course.due_first`).
-/

namespace LiveHighlight

/-! ## Pending slots -/

namespace Scheduler

variable {ω : Type} {s : Scheduler ω} {id now : Nat}

theorem nodup_enlist (h : s.pending.Nodup) : (s.enlist id).pending.Nodup := by
  unfold enlist
  split
  · exact h
  · next hn => simpa [List.nodup_append] using ⟨h, fun a ha he => hn (he ▸ ha)⟩

theorem pending_conclude (g : Nat) (w : ω) (outcome : Outcome) : (s.conclude id g w outcome now).1.pending = s.pending := by
  unfold conclude
  dsimp only
  split
  · rfl
  · split
    · split <;> split <;> rfl
    · rfl
    · rfl

/-- Slots that are due and come before all others that are, none of them armed at the same time as another one, begin the next
round in their order. -/
theorem due_eq_append {first : List Nat} (hs : s.pending.Nodup)
    (distinct : ∀ j k, j ≠ k → (s.slot j).isDue now = true → (s.slot k).isDue now = true → (s.slot j).seq ≠ (s.slot k).seq)
    (nodup : first.Nodup) (sorted : first.Pairwise fun a b => s.before a b = true) (mem : ∀ a ∈ first, a ∈ s.due now)
    (ahead : ∀ a ∈ first, ∀ b ∈ s.due now, b ∉ first → s.before a b = true) : ∃ others, s.due now = first ++ others := by
  refine ⟨(s.due now).filter (· ∉ first), ?_⟩
  have hdue : (s.due now).Nodup := nodup_due hs
  have perm : (s.due now).Perm (first ++ (s.due now).filter (· ∉ first)) := by
    refine (List.perm_ext_iff_of_nodup hdue ?_).2 fun a => ?_
    · refine List.nodup_append.2 ⟨nodup, hdue.filter _, ?_⟩
      rintro a ha b hb rfl
      exact of_decide_eq_true (List.mem_filter.1 hb).2 ha
    · by_cases ha : a ∈ first
      · simp [ha, mem a ha]
      · simp [ha]
  refine perm.eq_of_pairwise ?_ (s.pairwise_due now) ?_
  · intro a b ha hb hab hba
    by_contra hne
    have hb' := perm.mem_iff.2 hb
    refine distinct a b hne (mem_due_iff.1 ha).2 (mem_due_iff.1 hb').2 ?_
    rw [before_iff] at hab hba
    omega
  · refine List.pairwise_append.2 ⟨sorted, (s.pairwise_due now).filter _, fun a ha b hb => ?_⟩
    exact ahead a ha b (List.mem_filter.1 hb).1 (of_decide_eq_true (List.mem_filter.1 hb).2)

end Scheduler

/-- A shift puts no slot on the list of pending ones twice. -/
theorem Shift.nodup {s : Session} {t : Task} {s' : Scheduler Worker} (shift : Shift s t s') (h : s.scheduler.pending.Nodup) :
    s'.pending.Nodup := by
  cases shift with
  | start =>
    unfold Scheduler.start
    dsimp only
    split
    · exact h
    · exact Scheduler.nodup_enlist h
  | pause =>
    unfold Scheduler.pause
    split <;> exact h
  | stop =>
    unfold Scheduler.stop
    dsimp only
    split
    · exact h
    · exact h.filter _
  | install | seat => exact Scheduler.nodup_enlist h
  | claim =>
    unfold Scheduler.claim
    dsimp only
    split
    · split
      · exact h.filter _
      · exact h
    · exact h
  | conclude =>
    rw [Scheduler.pending_conclude]
    exact h
  | delist => exact h.filter _
  | _ => exact h

/-- A shift changes at most one slot. -/
theorem Shift.only {s : Session} {t : Task} {s' : Scheduler Worker} (shift : Shift s t s') :
    ∃ slot, ∀ k ≠ slot, s'.view k = s.scheduler.view k := by
  cases shift with
  | same => exact ⟨0, fun _ _ => rfl⟩
  | add label => exact ⟨s.scheduler.slots.length, fun k hk => (Scheduler.view_add label).trans (if_neg hk)⟩
  | @start _ _ slot => exact ⟨slot, fun k hk => Scheduler.view_start_ne hk _⟩
  | @pause _ _ slot => exact ⟨slot, fun k hk => Scheduler.view_pause_ne hk⟩
  | @stop slot => exact ⟨slot, fun k hk => Scheduler.view_stop_ne hk⟩
  | @install slot | @seat slot => exact ⟨slot, fun k hk => Scheduler.view_install_ne hk _ _⟩
  | @evict slot => exact ⟨slot, fun k hk => Scheduler.view_evict_ne hk⟩
  | @claim _ slot => exact ⟨slot, fun k hk => Scheduler.view_claim_ne hk _⟩
  | @conclude _ slot => exact ⟨slot, fun k hk => Scheduler.view_conclude_ne hk _ _ _ _⟩
  | @restore _ slot => exact ⟨slot, fun k hk => Scheduler.view_restore_ne hk _⟩
  | @delist _ slot => exact ⟨slot, fun k hk => Scheduler.view_delist_ne hk⟩

namespace Machine

namespace Course

variable {past : List Machine} {m : Machine}

/-- No slot is ever twice on the list of pending ones. -/
theorem pending_nodup (run : Course past m) : m.session.scheduler.pending.Nodup := by
  induction run with
  | new options => exact List.nodup_nil
  | ask _ _ _ ih => exact ih
  | @step _ q t rest _ _ ih => exact ({ q with agenda := rest }.run_shift t).nodup ih

/-- No two slots that wait have the same number. -/
theorem seq_ne (run : Course past m) {j k at_ at' : Nat} (hne : j ≠ k) (hj : (m.session.scheduler.slot j).phase = .queued at_)
    (hk : (m.session.scheduler.slot k).phase = .queued at') :
    (m.session.scheduler.slot j).seq ≠ (m.session.scheduler.slot k).seq := by
  induction run generalizing at_ at' with
  | new options => simp [Session.new, Scheduler.new, Scheduler.slot, Slot.fresh] at hj
  | ask _ _ _ ih => exact ih hj hk
  | @step _ q t rest run _ ih =>
    have shift := { q with agenda := rest }.run_shift t
    obtain ⟨slot, honly⟩ := shift.only
    -- the one of the two that is not touched waited before, and has a number that was given before
    have armed {i i' a a' : Nat} (hi : i ≠ slot) (hwait : (({ q with agenda := rest }.run t).session.scheduler.slot i).phase = .queued a)
        (hwait' : (({ q with agenda := rest }.run t).session.scheduler.slot i').phase = .queued a')
        (before : (q.session.scheduler.slot i).phase = .queued a → (q.session.scheduler.slot i').phase = .queued a' →
          (q.session.scheduler.slot i).seq ≠ (q.session.scheduler.slot i').seq) :
        (({ q with agenda := rest }.run t).session.scheduler.slot i).seq ≠
          (({ q with agenda := rest }.run t).session.scheduler.slot i').seq := by
      have hview := congrArg Prod.fst (honly i hi)
      simp only [Scheduler.view] at hview
      rw [hview] at hwait ⊢
      cases FairnessAux.armed shift hwait' with
      | before hp hs =>
        rw [hs]
        exact before hwait hp
      | anew hs =>
        rw [hs]
        exact Nat.ne_of_lt (FairnessAux.seq_lt run hwait)
    by_cases hs : j = slot
    · exact (armed (hs ▸ hne.symm) hk hj fun hk hj => (ih hj hk).symm).symm
    · exact armed hs hj hk fun hj hk => ih hj hk

end Course

end Machine

/-- The slots that a round would begin with. -/
def Machine.due (m : Machine) : List Nat := m.session.scheduler.due m.session.now

/-! ## Since a moment -/

/-- What is known of appointments where the machines `later` were passed since `p`, as long as the clock is not behind `p`: a slot
that waits has waited since `p` and no round came to it, or it was armed since, for no earlier time than that of `p` and behind
everything that waited there. -/
structure Since (p : Machine) (later : List Machine) (m : Machine) : Prop where
  next : p.session.scheduler.nextSeq ≤ m.session.scheduler.nextSeq
  seats : ∀ k w at_, .seat k w at_ ∈ m.agenda → p.session.now ≤ at_
  armed : ∀ k ∈ m.session.scheduler.pending, ∀ at_, (m.session.scheduler.slot k).phase = .queued at_ →
    (k ∈ p.session.scheduler.pending ∧ (p.session.scheduler.slot k).phase = .queued at_ ∧ ∀ q ∈ later, ∀ w, ¬ q.Begins k w) ∨
      p.session.now ≤ at_ ∧ p.session.scheduler.nextSeq ≤ (m.session.scheduler.slot k).seq

namespace ArmingAux

open FairnessAux

variable {p q : Machine} {s : Session} {t : Task} {s' : Scheduler Worker} {rest new : List Task} {later past : List Machine} {k at_ : Nat}

/-- A slot on the list that waits was on the list and waited before, or it was armed. -/
theorem armed_listed (h : Shift s t s') (hk : k ∈ s'.pending) (hp : (s'.slot k).phase = .queued at_) :
    (k ∈ s.scheduler.pending ∧ (s.scheduler.slot k).phase = .queued at_ ∧ (s'.slot k).seq = (s.scheduler.slot k).seq) ∨
      ((∀ w, t ≠ .seat k w at_) → s.now ≤ at_) ∧ (s'.slot k).seq = s.scheduler.nextSeq := by
  cases armed h hp with
  | anew hs _ hat => exact .inr ⟨hat, hs⟩
  | before hp' hs =>
    by_cases hlisted : k ∈ s.scheduler.pending
    · exact .inl ⟨hlisted, hp', hs⟩
    · -- what puts a slot on the list arms it
      have hat := h.shiftAt (Scheduler.knows_of_phase (by rw [hp']; simp))
      have hcount : s'.pending.count k ≠ 0 := Nat.ne_of_gt (List.count_pos_iff.2 hk)
      have hnone : s.scheduler.pending.count k = 0 := List.count_eq_zero.2 hlisted
      generalize hv : s'.view k = v at hat
      generalize s'.nextSeq = next at hat
      rw [show s'.slot k = v.1 from congrArg Prod.fst hv] at hp ⊢
      rw [show s'.pending.count k = v.2 from congrArg Prod.snd hv] at hcount
      cases hat with
      | start | install =>
        obtain rfl := SlotPhase.queued.inj hp
        exact .inr ⟨fun _ => Nat.le_add_right _ _, rfl⟩
      | seat =>
        obtain rfl := SlotPhase.queued.inj hp
        exact .inr ⟨fun hne => absurd rfl (hne _), rfl⟩
      | stop | vacate | delist => exact absurd rfl hcount
      | _ => exact absurd hnone hcount

theorem seat_install {m : Machine} {slot delay : Nat} {w w' : Worker} (hx : .seat k w at_ ∈ (m.install slot w' delay).agenda) :
    .seat k w at_ ∈ m.agenda ∨ at_ = m.session.now + delay := by
  unfold Machine.install Machine.onSlot at hx
  split at hx
  · cases hx
  · split at hx
    · exact .inl hx
    · rcases List.mem_append.1 hx with hx | hx
      · rcases List.mem_pair.1 hx with hx | hx
        · cases hx
        · cases hx
          exact .inr rfl
      · exact .inl hx

/-- A worker that is to take the place of another one has its appointment from now on. -/
theorem seat_new (run : Machine.Course past q) (ha : q.agenda = t :: rest) {w : Worker}
    (hx : .seat k w at_ ∈ ({ q with agenda := rest }.run t).agenda) : .seat k w at_ ∈ rest ∨ q.session.now ≤ at_ := by
  rcases run.advance ha with hc | ⟨new, hn, turn, -, -⟩
  · rw [hc.1] at hx
    cases hx
  · rcases List.mem_append.1 (hn ▸ hx) with hnew | hrest
    · obtain ⟨delay, rfl⟩ := BarringAux.install_of_seat turn hnew
      exact (seat_install hx).imp_right fun hat => Nat.le_trans (Nat.le_add_right _ _) (Nat.le_of_eq hat.symm)
    · exact .inl hrest

/-- A round that begins a step leaves the slot under way. -/
theorem running_of_begins (ha : q.agenda = t :: rest) {w : Worker} (begins : q.Begins k w) :
    (({ q with agenda := rest }.run t).session.scheduler.slot k).phase = .running := by
  obtain ⟨r, due, rest', g, ha', hr, hc⟩ := Machine.begins_iff.1 begins
  obtain ⟨rfl, rfl⟩ := List.cons.inj (ha.symm.trans ha')
  have hs : ({ q with agenda := rest }.run (.round r)).session.scheduler = (q.session.scheduler.claim k r.now).1 :=
    scheduler_round { q with agenda := rest } hr
  obtain ⟨hd, hw, -⟩ := Scheduler.claim_step hc
  have hv := congrArg (fun v => v.1.phase) (Scheduler.view_claim (Scheduler.knows_of_worker hw) r.now)
  rw [if_pos hd, if_neg (by simp [hw])] at hv
  rw [hs]
  exact hv

theorem since_step (run : Machine.Course past q) (ha : q.agenda = t :: rest) (clock : p.session.now ≤ q.session.now)
    (h : Since p later q) : Since p (q :: later) ({ q with agenda := rest }.run t) where
  next := Nat.le_trans h.next ({ q with agenda := rest }.run_shift t).nextSeq_le
  seats k w at_ hx := by
    rcases seat_new run ha hx with hx | hle
    · exact h.seats k w at_ (ha ▸ .tail _ hx)
    · exact Nat.le_trans clock hle
  armed k hk at_ hp := by
    rcases armed_listed ({ q with agenda := rest }.run_shift t) hk hp with ⟨hk', hp', hs⟩ | ⟨hat, hs⟩
    · rw [hs]
      refine (h.armed k hk' at_ hp').imp_left fun ⟨hk₀, hp₀, hnone⟩ => ⟨hk₀, hp₀, fun x hx w hw => ?_⟩
      rcases List.mem_cons.1 hx with rfl | hx
      · cases (running_of_begins ha hw).symm.trans hp
      · exact hnone x hx w hw
    · refine .inr ⟨?_, hs ▸ h.next⟩
      by_cases hseat : ∃ w, t = .seat k w at_
      · obtain ⟨w, rfl⟩ := hseat
        exact h.seats k w at_ (ha ▸ .head _)
      · exact Nat.le_trans clock (hat fun w ht => hseat ⟨w, ht⟩)

end ArmingAux

open ArmingAux

/-- On a course from where the host asks something, as long as the clock does not go back behind that. -/
theorem Machine.Course.since {later earlier : List Machine} {p m : Machine} (run : Course (later ++ p :: earlier) m) {c : Call}
    (asked : p.agenda = [.call c .host]) (clock : ∀ q ∈ later, p.session.now ≤ q.session.now) : Since p later m := by
  have start : Since p [] p :=
    ⟨Nat.le_refl _, by simp [asked], fun k hk at_ hp => .inl ⟨hk, hp, by simp⟩⟩
  induction later generalizing m with
  | nil =>
    cases run with
    | ask _ _ idle =>
      rw [idle.1] at asked
      cases asked
    | step run ha =>
      have h := since_step run ha (Nat.le_refl _) start
      exact ⟨h.next, h.seats, fun k hk at_ hp => (h.armed k hk at_ hp).imp_left fun ⟨hk₀, hp₀, _⟩ => ⟨hk₀, hp₀, by simp⟩⟩
  | cons q later ih =>
    have clock' : ∀ x ∈ later, p.session.now ≤ x.session.now := fun x hx => clock x (.tail _ hx)
    cases run with
    | ask c run idle =>
      have h := ih run clock'
      refine ⟨h.next, by simp [Machine.ask], fun k hk at_ hp => (h.armed k hk at_ hp).imp_left ?_⟩
      rintro ⟨hk₀, hp₀, hnone⟩
      refine ⟨hk₀, hp₀, fun x hx w hw => ?_⟩
      rcases List.mem_cons.1 hx with rfl | hx
      · obtain ⟨r, due, rest, g, ha, -⟩ := Machine.begins_iff.1 hw
        rw [idle.1] at ha
        cases ha
      · exact hnone x hx w hw
    | step run ha => exact since_step run ha (clock q (.head _)) (ih run clock')

/-- A slot that waits with its worker where nothing is left to do stays as it is as long as nothing touches it and no round comes
to it. -/
theorem Machine.Course.left_alone {later earlier : List Machine} {p m : Machine} (run : Course (later ++ p :: earlier) m)
    (ended : p.agenda = []) {k : Nat} {w : Worker} (hw : (p.session.scheduler.slot k).worker = some w)
    (untouched : ∀ q ∈ later, ¬ q.Touches k ∧ ∀ w, ¬ q.Begins k w) :
    m.session.scheduler.view k = p.session.scheduler.view k ∧ ∀ x ∈ m.agenda, x.isRound = true → x.slot? ≠ some k := by
  induction later generalizing m with
  | nil =>
    cases run with
    | ask c _ _ => exact ⟨rfl, by simp [Machine.ask, Task.isRound]⟩
    | step _ ha =>
      rw [ended] at ha
      cases ha
  | cons q later ih =>
    have later' : ∀ x ∈ later, ¬ x.Touches k ∧ ∀ w, ¬ x.Begins k w := fun x hx => untouched x (.tail _ hx)
    cases run with
    | ask c run _ => exact ⟨(ih run later').1, by simp [Machine.ask, Task.isRound]⟩
    | step run ha =>
      obtain ⟨hview, hapart⟩ := ih run later'
      have hw' : (q.session.scheduler.slot k).worker = some w := by
        rw [show q.session.scheduler.slot k = p.session.scheduler.slot k from congrArg Prod.fst hview]
        exact hw
      obtain ⟨hu, hb⟩ := untouched q (.head _)
      obtain ⟨hstep, hapart'⟩ := FairnessAux.waiting_step run ha hw' hu (hb w) hapart
      exact ⟨hstep.trans hview, hapart'⟩

/-- Slots that were due where the host asked something, and are as they were, begin the next round in their order if every other
slot that was due has begun a step since, and the clock has not gone back. -/
theorem Machine.Course.due_first {later earlier : List Machine} {p m : Machine} (run : Course (later ++ p :: earlier) m) {c : Call}
    (asked : p.agenda = [.call c .host]) (clock : ∀ q ∈ m :: later, p.session.now ≤ q.session.now) {slots : List Nat}
    (sub : slots.Sublist p.due) (kept : ∀ k ∈ slots, m.session.scheduler.view k = p.session.scheduler.view k)
    (begun : ∀ k ∈ p.due, k ∉ slots → ∃ q ∈ later, ∃ w, q.Begins k w) : ∃ others, m.due = slots ++ others := by
  have since := run.since asked fun q hq => clock q (.tail _ hq)
  have same (k : Nat) (hk : k ∈ slots) : m.session.scheduler.slot k = p.session.scheduler.slot k := congrArg Prod.fst (kept k hk)
  refine Scheduler.due_eq_append run.pending_nodup ?_ (sub.nodup (Scheduler.nodup_due run.before.pending_nodup)) ?_ ?_ ?_
  · intro j k hne hj hk
    obtain ⟨_, -, hj⟩ := Slot.isDue_iff.1 hj
    obtain ⟨_, -, hk⟩ := Slot.isDue_iff.1 hk
    exact run.seq_ne hne (Slot.appointment_eq_some.1 hj) (Slot.appointment_eq_some.1 hk)
  · refine List.Pairwise.imp_of_mem ?_ ((p.session.scheduler.pairwise_due p.session.now).sublist sub)
    intro a b ha hb hab
    rw [Scheduler.before_iff] at hab ⊢
    rwa [same a ha, same b hb]
  · intro a ha
    obtain ⟨hlisted, hdue⟩ := Scheduler.mem_due_iff.1 (sub.subset ha)
    obtain ⟨at_, hle, happ⟩ := Slot.isDue_iff.1 hdue
    have hcount := congrArg Prod.snd (kept a ha)
    refine Scheduler.mem_due_iff.2 ⟨List.count_pos_iff.1 (Nat.lt_of_lt_of_eq (List.count_pos_iff.2 hlisted) hcount.symm), ?_⟩
    rw [same a ha]
    exact Slot.isDue_iff.2 ⟨at_, Nat.le_trans hle (clock m (.head _)), happ⟩
  · intro a ha b hb hnot
    obtain ⟨ata, hlea, happa⟩ := Slot.isDue_iff.1 (Scheduler.mem_due_iff.1 (sub.subset ha)).2
    obtain ⟨hlisted, hdue⟩ := Scheduler.mem_due_iff.1 hb
    obtain ⟨atb, -, happb⟩ := Slot.isDue_iff.1 hdue
    have hseq := FairnessAux.seq_lt run.before (Slot.appointment_eq_some.1 happa)
    rw [Scheduler.before_iff, same a ha, happa, happb, Option.getD_some, Option.getD_some]
    rcases since.armed b hlisted atb (Slot.appointment_eq_some.1 happb) with ⟨hlisted₀, hp₀, hnone⟩ | ⟨hat, hlater⟩
    · -- it has waited all along, so it was not due
      refine .inl ?_
      by_contra hlt
      have hdue₀ : b ∈ p.due := Scheduler.mem_due_iff.2
        ⟨hlisted₀, Slot.isDue_iff.2 ⟨atb, by omega, Slot.appointment_eq_some.2 hp₀⟩⟩
      obtain ⟨q, hq, w, hw⟩ := begun b hdue₀ hnot
      exact hnone q hq w hw
    · omega

end LiveHighlight
