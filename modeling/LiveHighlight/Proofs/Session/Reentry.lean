import LiveHighlight.Proofs.Session.Known

/-!
# What the end of a worker can do to its slot

The end of a worker may call anything, its own place included. A session is sound while no slot is barred, so that no call can
crash it, and every slot in use is on the list of pending ones, so that a round that comes when a slot is due steps its worker
(`Machine.mem_due`). There are exactly two ways to lose this (`Course.sound_iff`): a worker is put into a slot that the end of
another one has filled meanwhile (`Overwrites`), and a step's end takes a slot off the list that the end of its worker has filled
meanwhile (`Forfeits`). Stopping a place does neither by itself: the slot is free and off the list before its worker is
discarded.
-/

namespace LiveHighlight

/-- Whether the first task puts a worker into a slot that holds another one. -/
def Overwrites (s : Scheduler Worker) : List Task → Prop
  | .install slot _ _ :: _ => (s.slot slot).worker ≠ none
  | .conclude _ slot g _ (.ok (.again _)) :: _ => (s.slot slot).generation = g ∧ (s.slot slot).worker ≠ none
  | _ => False

/-- Whether the first task takes a slot off the list of pending ones, its worker being discarded, that is in use again. -/
def Forfeits (s : Scheduler Worker) : List Task → Prop
  | .close _ slot c :: _ => c.returning = none ∧ c.finished = true ∧ (s.slot slot).phase ≠ .free
  | _ => False

/-- No slot is barred, every slot in use is on the list of pending ones, and the machine has not crashed. -/
structure Machine.Sound (m : Machine) : Prop where
  unbarred : ∀ slot, (m.session.scheduler.slot slot).barred = false
  listed : ∀ slot, (m.session.scheduler.slot slot).phase ≠ .free → slot ∈ m.session.scheduler.pending
  alive : m.reply ≠ some .crashed

/-- In a sound session a round that begins when a slot is due sees to the slot. -/
theorem Machine.mem_due {m : Machine} (h : m.Sound) {slot : Nat}
    (hs : (m.session.scheduler.slot slot).isDue m.session.now = true) :
    slot ∈ m.session.scheduler.due m.session.now := by
  have hp : (m.session.scheduler.slot slot).phase ≠ .free := fun hf => by simp [Slot.isDue, hf] at hs
  simp [Scheduler.due, List.mem_mergeSort, h.listed slot hp, hs]

namespace ReentryAux

/-- What soundness is for one slot. -/
def Clear (s : Scheduler Worker) (k : Nat) : Prop :=
  (s.view k).1.barred = false ∧ ((s.view k).1.phase ≠ .free → (s.view k).2 ≠ 0)

theorem clear_congr {s s' : Scheduler Worker} {k : Nat} (h : Clear s k) (hv : s'.view k = s.view k) : Clear s' k := by
  unfold Clear
  rw [hv]
  exact h

theorem listed_ne_zero (n : Nat) : Scheduler.listed n ≠ 0 := by
  unfold Scheduler.listed
  split <;> omega

/-- A step's end keeps a slot sound that it does not fill a second time. -/
theorem clear_conclude {s : Scheduler Worker} {k g now : Nat} {w : Worker} {outcome : Outcome} (h : Clear s k)
    (hk : s.Knows k)
    (hw : ∀ delay, outcome = .ok (.again delay) → (s.slot k).generation = g → (s.slot k).worker = none) :
    Clear (s.conclude k g w outcome now).1 k := by
  by_cases hg : (s.slot k).generation = g
  · subst hg
    rcases outcome with fault | ⟨delay⟩ | -
    · rw [Clear, Scheduler.view_conclude_error hk]
      exact ⟨h.1, fun hp => absurd rfl hp⟩
    · rw [Clear, Scheduler.view_conclude_again hk _ _ _ (hw delay rfl rfl)]
      refine ⟨rfl, fun hp => h.2 fun hf => hp ?_⟩
      rw [show (s.slot k).phase = .free from hf]
      rfl
    · rw [Clear, Scheduler.view_conclude_finished hk]
      exact ⟨h.1, fun hp => absurd rfl hp⟩
  · exact clear_congr h (Scheduler.view_conclude_stale hg _ _ _)

/-- A turn that neither fills a slot a second time nor takes one in use off the list keeps every slot sound. -/
theorem clear_turn {o o' : Office} {t : Task} {rest new : List Task} (hk : o.Known (t :: rest))
    (hc : ∀ k, Clear o.scheduler k) (ho : ¬ Overwrites o.scheduler (t :: rest)) (hf : ¬ Forfeits o.scheduler (t :: rest))
    (h : Turn o t o' new) (k : Nat) : Clear o'.scheduler k := by
  have frame {s' : Scheduler Worker} (hv : s'.view k = o.scheduler.view k) : Clear s' k := clear_congr (hc k) hv
  have known {slot : Nat} (hs : t.slot? = some slot) : o.scheduler.Knows slot := hk.tasks t (.head _) slot hs
  cases h with
  | openPlace | attach =>
    rw [Clear, Scheduler.view_add]
    split
    · exact ⟨rfl, fun hp => absurd rfl hp⟩
    · exact hc k
  | @start _ _ slot at_ hs =>
    rcases eq_or_ne k slot with rfl | hne
    · rw [Clear, Scheduler.view_start (hk.refers _ hs)]
      split
      · exact hc k
      · exact ⟨(hc k).1, fun _ => listed_ne_zero _⟩
    · exact frame (Scheduler.view_start_ne hne _)
  | @pause _ _ slot hs =>
    rcases eq_or_ne k slot with rfl | hne
    · rw [Clear, Scheduler.view_pause (hk.refers _ hs)]
      split
      · exact hc k
      · next hp => exact ⟨(hc k).1, fun _ => (hc k).2 hp⟩
    · exact frame (Scheduler.view_pause_ne hne)
  | @stop slot =>
    rcases eq_or_ne k slot with rfl | hne
    · rw [Clear, Scheduler.view_stop (known rfl)]
      split
      · exact hc k
      · exact ⟨(hc k).1, fun hp => absurd rfl hp⟩
    · exact frame (Scheduler.view_stop_ne hne)
  | @install slot _ at_ w | @seat slot at_ w =>
    rcases eq_or_ne k slot with rfl | hne
    · rw [Clear, Scheduler.view_install (known rfl)]
      exact ⟨rfl, fun _ => listed_ne_zero _⟩
    · exact frame (Scheduler.view_install_ne hne _ _)
  | evict _ hw => exact absurd (by simp [Overwrites, hw]) ho
  | @pass r _ slot | @work r _ slot =>
    rcases eq_or_ne k slot with rfl | hne
    · by_cases hs : o.scheduler.Knows k
      · rw [Clear, Scheduler.view_claim hs]
        split
        · next hd =>
          split
          · exact ⟨(hc k).1, fun hp => absurd rfl hp⟩
          · refine ⟨(hc k).1, fun _ => (hc k).2 ?_⟩
            intro hp
            simp [Slot.isDue, show (o.scheduler.slot k).phase = .free from hp] at hd
        · exact hc k
      · rw [Scheduler.claim_of_not_knows hs]
        exact hc k
    · exact frame (Scheduler.view_claim_ne hne _)
  | @conclude r slot g now w outcome =>
    rcases eq_or_ne k slot with rfl | hne
    · refine clear_conclude (hc k) (known rfl) ?_
      intro delay hd hg
      subst hd
      simpa [Overwrites, hg] using ho
    · exact frame (Scheduler.view_conclude_ne hne _ _ _ _)
  | @closeReturning r slot c w =>
    rcases eq_or_ne k slot with rfl | hne
    · rw [Clear, Scheduler.view_restore (known rfl)]
      exact ⟨rfl, (hc k).2⟩
    · exact frame (Scheduler.view_restore_ne hne _)
  | @closeFinished r slot c _ hr hfin =>
    rcases eq_or_ne k slot with rfl | hne
    · rw [Clear, Scheduler.view_delist]
      refine ⟨(hc k).1, fun hp => absurd ?_ hf⟩
      exact ⟨hr, hfin, hp⟩
    · exact frame (Scheduler.view_delist_ne hne)
  | _ => exact hc k

/-- A machine that is about to fill a slot a second time is unsound already, or it bars the slot. -/
theorem not_sound_of_overwrites {p : Machine} {t : Task} {rest : List Task} (ha : p.agenda = t :: rest)
    (h : Overwrites p.session.scheduler (t :: rest)) (hp : p.Sound) : ¬ ({ p with agenda := rest }.run t).Sound := by
  intro hs
  unfold Overwrites at h
  split at h
  · next slot w delay _ hcons =>
    cases hcons
    obtain ⟨old, hw⟩ := Option.ne_none_iff_exists'.1 h
    have hb := hs.unbarred slot
    simp [Machine.run, Machine.install, Machine.onSlot, hp.unbarred slot, hw, Machine.push, Machine.schedule, Machine.put,
      Scheduler.evict, Scheduler.knows_of_worker hw] at hb
  · next r slot g w delay _ hcons =>
    cases hcons
    obtain ⟨hg, hw⟩ := h
    obtain ⟨old, hw⟩ := Option.ne_none_iff_exists'.1 hw
    have hb := hs.unbarred slot
    have hk := Scheduler.knows_of_worker hw
    by_cases hr : (p.session.scheduler.slot slot).phase = .running
    · have hk' (at_ : Nat) : (p.session.scheduler.appoint slot at_).Knows slot := by simpa [Scheduler.Knows] using hk
      simp [Machine.run, Machine.conclude, Machine.push, Machine.schedule, Machine.put, Scheduler.conclude, hg, hw, hr, hk, hk',
        Scheduler.evict] at hb
    · simp [Machine.run, Machine.conclude, Machine.push, Machine.schedule, Machine.put, Scheduler.conclude, hg, hw, hr, hk,
        Scheduler.evict] at hb
  · exact h

/-- A machine that is about to take a slot in use off the list leaves it off the list. -/
theorem not_sound_of_forfeits {p : Machine} {t : Task} {rest : List Task}
    (h : Forfeits p.session.scheduler (t :: rest)) : ¬ ({ p with agenda := rest }.run t).Sound := by
  intro hs
  unfold Forfeits at h
  split at h
  · next r slot c _ hcons =>
    cases hcons
    obtain ⟨hr, hf, hp⟩ := h
    have hv : ({ p with agenda := rest }.run (.close r slot c)).session.scheduler = p.session.scheduler.delist slot := by
      simp only [Machine.run, Machine.close, hr, hf, if_true]
      split
      · cases r.drive.asker <;> rfl
      · rfl
    have hl := hs.listed slot
    rw [hv] at hl
    simpa [Scheduler.delist] using hl hp
  · exact h

end ReentryAux

open ReentryAux

/-- A course is sound throughout exactly if no worker is put into a slot that holds another one and no step's end takes a slot
off the list that is in use again. -/
theorem Machine.Course.sound_iff {past : List Machine} {m : Machine} (run : Course past m) :
    (∀ p ∈ m :: past, p.Sound) ↔
      ∀ p ∈ past, ¬ Overwrites p.session.scheduler p.agenda ∧ ¬ Forfeits p.session.scheduler p.agenda := by
  constructor
  · intro hs p hp
    have hsp := hs p (.tail _ hp)
    cases ha : p.agenda with
    | nil => exact ⟨fun h => h, fun h => h⟩
    | cons t rest =>
      have hsn := hs _ (run.run_mem hp ha)
      exact ⟨fun h => not_sound_of_overwrites ha h hsp hsn, fun h => not_sound_of_forfeits h hsn⟩
  · intro h
    have sound {past' : List Machine} {p : Machine} (run' : Course past' p) (hsub : past' ⊆ past) : p.Sound := by
      have hi := run'.invariant_of_unbarred (I := fun o agenda => o.Known agenda ∧ ∀ k, Clear o.scheduler k)
        (P := fun o agenda => ¬ Overwrites o.scheduler agenda ∧ ¬ Forfeits o.scheduler agenda)
        (fun p hp => h p (hsub hp))
        (fun options => ⟨Office.known_new options, fun k => ⟨rfl, fun hp => absurd rfl hp⟩⟩)
        (fun c hi => ⟨⟨hi.1.refers, by simp [Task.slot?], hi.1.pending⟩, hi.2⟩)
        (fun hP hi ht => ⟨ht.known hi.1, clear_turn hi.1 hi.2 hP.1 hP.2 ht⟩)
        (fun hi slot => (hi.2 slot).1)
      refine ⟨fun slot => (hi.2.2 slot).1, ?_, hi.1⟩
      intro slot hp
      exact List.count_pos_iff.1 (Nat.pos_of_ne_zero ((hi.2.2 slot).2 hp))
    intro p hp
    rcases List.mem_cons.1 hp with rfl | hp
    · exact sound run (List.Subset.refl _)
    · obtain ⟨past', run', hsub⟩ := run.of_mem hp
      exact sound run' hsub

namespace ReentryAux

/-- A session with a place `p` at which a worker waits that is done after one step and whose end queues another worker there. -/
def will : Machine :=
  let opened := (Machine.ask (.new .standard) (.place "p")).settle 8
  (Machine.ask opened.session
    (.onPlace "p" (.queue ⟨"testator", [], [.onPlace "p" (.queue ⟨"heir", [], []⟩ 0)]⟩ 0))).settle 8

/-- That session after a round. -/
def inheritance : Machine := (Machine.ask will.session (.drive .tick 1)).settle 32

theorem course_inheritance : ∃ past, Machine.Course past inheritance := by
  have opened := (Machine.Course.ask (.place "p") (.new .standard) (by decide)).settle 8
  have queued := (Machine.Course.ask (.onPlace "p"
    (.queue ⟨"testator", [], [.onPlace "p" (.queue ⟨"heir", [], []⟩ 0)]⟩ 0)) opened (by decide +kernel)).settle 8
  exact ⟨_, (Machine.Course.ask (.drive .tick 1) queued (by decide +kernel)).settle 32⟩

theorem inheritance_lost : inheritance.Idle ∧ (inheritance.session.scheduler.slot 0).phase = .queued 0 ∧
    0 ∉ inheritance.session.scheduler.pending := by decide +kernel

end ReentryAux

/-- The end of a worker that is done can queue another worker at its own place, and the place is then off the list for good. -/
theorem Machine.Course.exists_unlisted : ∃ (past : List Machine) (m : Machine) (slot : Nat), Course past m ∧ m.Idle ∧
    (m.session.scheduler.slot slot).phase = .queued 0 ∧ slot ∉ m.session.scheduler.pending := by
  obtain ⟨past, run⟩ := course_inheritance
  exact ⟨past, inheritance, 0, run, inheritance_lost⟩

/-- On the course to that place, some step's end takes a slot off the list that is in use again, or fills a slot twice. -/
theorem Machine.Course.sound_iff_inheritance : ∃ (past : List Machine) (m : Machine), Course past m ∧
    ¬ ∀ p ∈ past, ¬ Overwrites p.session.scheduler p.agenda ∧ ¬ Forfeits p.session.scheduler p.agenda := by
  obtain ⟨past, run⟩ := course_inheritance
  refine ⟨past, inheritance, run, ?_⟩
  intro h
  have hs := run.sound_iff.2 h inheritance (.head _)
  have hl := hs.listed 0 (by rw [inheritance_lost.2.1]; simp)
  exact inheritance_lost.2.2 hl

end LiveHighlight
