import LiveHighlight.Proofs.Session.Orderly

/-!
# What holds of a slot on a calm course

What is true of one slot at every moment of a calm course, in which no code that the host lent lets work run and the workers put
into the slot end in silence. `Kept` ties together the slot's phase, its worker, its generation, its place on the list of pending
slots and the tasks that have it in hand; `Turn.kept` says that turns keep it.
-/

namespace LiveHighlight

/-- Whether a course is calm about a slot where its first task is to be done: no code that the host lent lets work run, and the
end of a worker that is put into the slot makes no calls. -/
def Calm (k : Nat) : List Task → Prop
  | .call (.drive ..) (.script _) :: _ => False
  | .install slot w _ :: _ => slot = k → w.onDrop = []
  | _ => True

theorem not_reenters_of_calm {k : Nat} {agenda : List Task} (h : Calm k agenda) : ¬ Reenters agenda := by
  unfold Reenters
  split
  · exact fun _ => h
  · exact id

/-- A course is calm where no code that the host lent lets work run and no worker is put in that ends in calls. -/
theorem calm_of_install {k : Nat} {agenda : List Task} (quiet : ¬ Reenters agenda)
    (h : ∀ w delay rest, agenda = .install k w delay :: rest → w.onDrop = []) : Calm k agenda := by
  unfold Calm
  split
  · exact quiet trivial
  · rintro rfl
    exact h _ _ _ rfl
  · trivial

/-- Whether a course is calm about every slot where these are its tasks. -/
def isCalm : List Task → Bool
  | .call (.drive ..) (.script _) :: _ => false
  | .install _ w _ :: _ => w.onDrop.isEmpty
  | _ => true

theorem calm_of_isCalm {agenda : List Task} (h : isCalm agenda = true) (k : Nat) : Calm k agenda := by
  refine calm_of_install ?_ ?_
  · intro hr
    unfold Reenters at hr
    split at hr
    · simp [isCalm] at h
    · exact hr
  · rintro w delay rest rfl
    exact List.isEmpty_iff.1 h

/-- A course is calm if it is so about every slot wherever a task of it was done. -/
theorem calm_of_all {past : List Machine} (h : past.all (fun m => isCalm m.agenda) = true) : ∀ m ∈ past, ∀ k, Calm k m.agenda :=
  fun m hm => calm_of_isCalm (List.all_eq_true.1 h m hm)

/-- Whether a task settles what becomes of a slot: it puts a worker in, or closes it after a step. -/
def Task.settles (k : Nat) : Task → Bool
  | .install slot _ _ | .seat slot _ _ | .close _ slot _ => decide (slot = k)
  | _ => false

/-- Whether a task ends a step of a slot. -/
def Task.concludes (k : Nat) : Task → Bool
  | .conclude _ slot _ _ _ => decide (slot = k)
  | _ => false

/-- Whether a task discards a worker that ends in silence, or is what remains of that. -/
def Task.isSilent : Task → Bool
  | .discard w => w.onDrop.isEmpty
  | .script calls => calls.isEmpty
  | _ => false

/-- How far a change of a slot is that takes several tasks. -/
inductive Stage (k : Nat) (s : Slot Worker) : List Task → Prop where
  /-- No change is under way. -/
  | steady {agenda : List Task} (ha : ∀ x ∈ agenda, x.settles k = false) : Stage k s agenda
  /-- A worker is to be put in, and the slot is to be stopped before. -/
  | coming {w : Worker} {delay : Nat} {rest : List Task} (ha : ∀ x ∈ rest, x.settles k = false) :
      Stage k s (.stop k :: .install k w delay :: rest)
  /-- A worker is to be put in, and the slot is stopped. -/
  | cleared {pre : List Task} {w : Worker} {delay : Nat} {rest : List Task} (hp : ∀ x ∈ pre, x.isSilent = true)
      (ha : ∀ x ∈ rest, x.settles k = false) (hf : s.phase = .free) (hw : s.worker = none) :
      Stage k s (pre ++ .install k w delay :: rest)
  /-- A step has ended, and the slot is to be closed. -/
  | ending {pre : List Task} {r : Round} {c : Conclusion Worker} (hp : ∀ x ∈ pre, x.isSilent = true)
      (hc : c.returning = none) (hf : c.finished = true ↔ s.phase = .free) : Stage k s (pre ++ [.close r k c])

/-- A task that settles a slot finds it empty, or has no worker to put back into it. -/
theorem Stage.head {k : Nat} {s : Slot Worker} {t : Task} {rest : List Task} (h : Stage k s (t :: rest))
    (ht : t.settles k = true) :
    (∃ w delay, t = .install k w delay ∧ s.worker = none) ∨ ∃ r c, t = .close r k c ∧ c.returning = none := by
  have silent (hs : t.isSilent = true) : False := by
    cases t with
    | install | seat | close => cases hs
    | _ => cases ht
  generalize ha : t :: rest = agenda at h
  cases h with
  | steady hs =>
    rw [hs t (by simp [← ha])] at ht
    cases ht
  | coming =>
    cases ha
    cases ht
  | @cleared pre w delay _ hp _ _ hw =>
    cases pre with
    | nil =>
      cases ha
      exact .inl ⟨w, delay, rfl, hw⟩
    | cons x pre =>
      cases ha
      exact absurd (hp _ (.head _)) silent
  | @ending pre r c hp hc =>
    cases pre with
    | nil =>
      cases ha
      exact .inr ⟨r, c, rfl, hc⟩
    | cons x pre =>
      cases ha
      exact absurd (hp _ (.head _)) silent

/-- No change of a slot is under way where the first task is none of those that such a change begins with. -/
theorem Stage.steady_of_head {k : Nat} {s : Slot Worker} {t : Task} {rest : List Task} (h : Stage k s (t :: rest))
    (hstop : t ≠ .stop k) (hsilent : t.isSilent = false) (ht : t.settles k = false) :
    ∀ x ∈ t :: rest, x.settles k = false := by
  generalize ha : t :: rest = agenda at h
  cases h with
  | steady hs => exact ha ▸ hs
  | coming =>
    cases ha
    exact absurd rfl hstop
  | @cleared pre _ _ _ hp =>
    cases pre with
    | nil =>
      cases ha
      simp [Task.settles] at ht
    | cons x pre =>
      cases ha
      rw [hp _ (.head _)] at hsilent
      cases hsilent
  | @ending pre _ _ hp =>
    cases pre with
    | nil =>
      cases ha
      simp [Task.settles] at ht
    | cons x pre =>
      cases ha
      rw [hp _ (.head _)] at hsilent
      cases hsilent

/-- What is true of a slot at every moment of a course that is calm about it; `n` is how often the slot is on the list of pending
ones. -/
structure Kept (k : Nat) (s : Slot Worker) (n : Nat) (agenda : List Task) : Prop where
  stage : Stage k s agenda
  unbarred : s.barred = false
  /-- A slot that holds a worker waits for its appointment or for being started. -/
  seated : ∀ w, s.worker = some w → s.phase ≠ .free ∧ s.phase ≠ .running ∧ w.onDrop = []
  /-- A slot in use without a worker lends it for a step. -/
  used : s.phase ≠ .free → s.worker = none → ∃ r w outcome, .conclude r k s.generation w outcome ∈ agenda
  /-- A worker that takes a step either has lost its place or finds it in use and empty. -/
  lent : ∀ r g w outcome, .conclude r k g w outcome ∈ agenda →
    w.onDrop = [] ∧ g ≤ s.generation ∧ (g = s.generation → s.phase ≠ .free ∧ s.worker = none)
  listed : s.phase ≠ .free → n = 1
  /-- A free slot is off the list, unless it is about to be taken off. -/
  unlisted : s.phase = .free → n = 0 ∨ ∃ r c, .close r k c ∈ agenda

namespace SlotInvariantAux

variable {k : Nat} {s s' : Slot Worker} {n : Nat} {o o' : Office} {t : Task} {rest new : List Task}

theorem settles_of_slot {x : Task} (h : x.slot? ≠ some k) : x.settles k = false := by
  cases x with
  | install slot | seat slot | close _ slot =>
    simp only [Task.settles, decide_eq_false_iff_not]
    rintro rfl
    exact h rfl
  | _ => rfl

theorem settles_of_light {x : Task} (h : x.Light o) : x.settles k = false := by
  cases x with
  | install | seat | close => cases h
  | _ => rfl

theorem concludes_of_light {x : Task} (h : x.Light o) : x.concludes k = false := by
  cases x with
  | conclude => cases h
  | _ => rfl

/-- A slot that nothing is about yet is free, and nothing is under way with it. -/
theorem kept_fresh (label : String) {agenda : List Task} (h : ∀ x ∈ agenda, x.slot? ≠ some k) :
    Kept k (.fresh label) 0 agenda where
  stage := .steady fun x hx => settles_of_slot (h x hx)
  unbarred := rfl
  seated w hw := by cases hw
  used hp := absurd rfl hp
  lent r g w outcome hx := absurd rfl (h _ hx)
  listed hp := absurd rfl hp
  unlisted _ := .inl rfl

/-- A free slot is off the list where no change of it is under way. -/
theorem count_of_steady {agenda : List Task} (hk : Kept k s n agenda) (ha : ∀ x ∈ agenda, x.settles k = false)
    (hf : s.phase = .free) : n = 0 := by
  rcases hk.unlisted hf with hn | ⟨r, c, hx⟩
  · exact hn
  · exact absurd (ha _ hx) (by simp [Task.settles])

/-- The tasks that remain of a steady agenda with others that are not about the slot. -/
theorem steady_append (ha : ∀ x ∈ t :: rest, x.settles k = false) (hs : ∀ x ∈ new, x.settles k = false) :
    ∀ x ∈ new ++ rest, x.settles k = false := by
  intro x hx
  rcases List.mem_append.1 hx with hx | hx
  · exact hs x hx
  · exact ha x (.tail _ hx)

/-- A step of the slot that ends after a turn has begun before it, unless the turn begins it. -/
theorem conclude_of_append (hc : ∀ x ∈ new, x.concludes k = false) {r : Round} {g : Nat} {w : Worker} {outcome : Outcome}
    (hx : .conclude r k g w outcome ∈ new ++ rest) : .conclude r k g w outcome ∈ t :: rest := by
  rcases List.mem_append.1 hx with hx | hx
  · exact absurd (hc _ hx) (by simp [Task.concludes])
  · exact .tail _ hx

/-- A step of the slot that was to end is still to end after another task. -/
theorem conclude_append (ht : t.concludes k = false) {r : Round} {g : Nat} {w : Worker} {outcome : Outcome}
    (hx : .conclude r k g w outcome ∈ t :: rest) : .conclude r k g w outcome ∈ new ++ rest := by
  rcases List.mem_cons.1 hx with rfl | hx
  · simp [Task.concludes] at ht
  · exact List.mem_append_right _ hx

/-- A turn that leaves the slot alone keeps what is true of it, wherever the change of the slot that is under way has got to. -/
theorem kept_frame (hk : Kept k s n (t :: rest)) (ht : t.concludes k = false) (hc : ∀ x ∈ new, x.concludes k = false)
    (hst : Stage k s (new ++ rest)) (hcl : ∀ r c, t ≠ .close r k c) : Kept k s n (new ++ rest) where
  stage := hst
  unbarred := hk.unbarred
  seated := hk.seated
  used hp hw := by
    obtain ⟨r, w, outcome, hx⟩ := hk.used hp hw
    exact ⟨r, w, outcome, conclude_append ht hx⟩
  lent r g w outcome hx := hk.lent r g w outcome (conclude_of_append hc hx)
  listed := hk.listed
  unlisted hf := by
    rcases hk.unlisted hf with hn | ⟨r, c, hx⟩
    · exact .inl hn
    · rcases List.mem_cons.1 hx with rfl | hx
      · exact absurd rfl (hcl r c)
      · exact .inr ⟨r, c, List.mem_append_right _ hx⟩

/-- The same where no change of the slot is under way. -/
theorem kept_steady (hk : Kept k s n (t :: rest)) (ha : ∀ x ∈ t :: rest, x.settles k = false) (ht : t.concludes k = false)
    (hs : ∀ x ∈ new, x.settles k = false) (hc : ∀ x ∈ new, x.concludes k = false) : Kept k s n (new ++ rest) :=
  kept_frame hk ht hc (.steady (steady_append ha hs)) fun r c => by
    rintro rfl
    exact absurd (ha _ (.head _)) (by simp [Task.settles])

/-! ### What one operation does to a slot that it is for -/

/-- The slot is given an appointment or is paused while it is in use. -/
theorem kept_rearm (hk : Kept k s n (t :: rest)) (ha : ∀ x ∈ t :: rest, x.settles k = false) (ht : t.concludes k = false)
    {phase : SlotPhase} {seq : Nat} (hu : s.phase ≠ .free) (hf : phase ≠ .free) (hr : phase ≠ .running) :
    Kept k { s with phase := phase, seq := seq } n ([] ++ rest) where
  stage := .steady (steady_append ha (by simp))
  unbarred := hk.unbarred
  seated w hw := ⟨hf, hr, (hk.seated w hw).2.2⟩
  used _ hw := by
    obtain ⟨r, w, outcome, hx⟩ := hk.used hu hw
    exact ⟨r, w, outcome, conclude_append ht hx⟩
  lent r g w outcome hx := by
    have hl := hk.lent r g w outcome (.tail _ hx)
    exact ⟨hl.1, hl.2.1, fun hg => ⟨hf, (hl.2.2 hg).2⟩⟩
  listed _ := hk.listed hu
  unlisted h := absurd h hf

/-- The slot is stopped: a worker that takes a step has lost its place from now on. -/
theorem kept_stopped (hk : Kept k s n (.stop k :: rest))
    (hst : Stage k { s with worker := none, phase := .free, generation := s.generation + 1 } (new ++ rest))
    (hc : ∀ x ∈ new, x.concludes k = false) :
    Kept k { s with worker := none, phase := .free, generation := s.generation + 1 } 0 (new ++ rest) where
  stage := hst
  unbarred := hk.unbarred
  seated w hw := by cases hw
  used hp := absurd rfl hp
  lent r g w outcome hx := by
    have hl := hk.lent r g w outcome (conclude_of_append hc hx)
    exact ⟨hl.1, Nat.le_succ_of_le hl.2.1, fun hg => absurd hl.2.1 (by simp only at hg; omega)⟩
  listed hp := absurd rfl hp
  unlisted _ := .inl rfl

/-- A worker is put into the slot, which is free. -/
theorem kept_installed {w : Worker} {delay at_ seq : Nat} (hk : Kept k s n (.install k w delay :: rest))
    (ha : ∀ x ∈ rest, x.settles k = false) (hf : s.phase = .free) (hn : n = 0) (hd : w.onDrop = []) :
    Kept k { s with worker := some w, barred := false, phase := .queued at_, seq := seq } (Scheduler.listed n) ([] ++ rest) where
  stage := .steady (by simpa using ha)
  unbarred := rfl
  seated w' hw := by
    obtain rfl := Option.some.inj hw
    exact ⟨by simp, by simp, hd⟩
  used _ hw := by cases hw
  lent r g w outcome hx := by
    have hl := hk.lent r g w outcome (.tail _ hx)
    exact ⟨hl.1, hl.2.1, fun hg => absurd hf (hl.2.2 hg).1⟩
  listed _ := by simp [hn, Scheduler.listed]
  unlisted h := by cases h

/-- The slot lends its worker for a step. -/
theorem kept_lent {w w' : Worker} {r : Round} {outcome : Outcome} (hk : Kept k s n [t]) (hw : s.worker = some w)
    (hl : w.Later w') (hs : ∀ x ∈ new, x.settles k = false) (hc : ∀ x ∈ new, x.concludes k = false) :
    Kept k { s with worker := none, phase := .running } n (new ++ [.conclude r k s.generation w' outcome]) where
  stage := by
    refine .steady ?_
    intro x hx
    rcases List.mem_append.1 hx with hx | hx
    · exact hs x hx
    · obtain rfl := List.mem_singleton.1 hx
      rfl
  unbarred := hk.unbarred
  seated w hw := by cases hw
  used _ _ := ⟨r, w', outcome, by simp⟩
  lent r' g' w'' outcome' hx := by
    rcases List.mem_append.1 hx with hx | hx
    · exact absurd (hc _ hx) (by simp [Task.concludes])
    · cases List.mem_singleton.1 hx
      exact ⟨hl.onDrop.trans (hk.seated w hw).2.2, Nat.le_refl _, fun _ => ⟨by simp, rfl⟩⟩
  listed _ := hk.listed (hk.seated w hw).1
  unlisted h := by cases h

/-- The slot is to be closed: no step of it is under way, so it holds a worker if it is in use. -/
theorem kept_ending {pre : List Task} {r : Round} {c : Conclusion Worker} (hb : s.barred = false)
    (hw : ∀ w, s.worker = some w → s.phase ≠ .free ∧ s.phase ≠ .running ∧ w.onDrop = [])
    (hu : s.phase ≠ .free → s.worker ≠ none) (hn : s.phase ≠ .free → n = 1) (hp : ∀ x ∈ pre, x.isSilent = true)
    (hc : c.returning = none) (hf : c.finished = true ↔ s.phase = .free) : Kept k s n (pre ++ [.close r k c]) where
  stage := .ending hp hc hf
  unbarred := hb
  seated := hw
  used h hw := absurd hw (hu h)
  lent r' g w outcome hx := by
    rcases List.mem_append.1 hx with hx | hx
    · exact absurd (hp _ hx) (by simp [Task.isSilent])
    · cases List.mem_singleton.1 hx
  listed := hn
  unlisted _ := .inr ⟨r, c, by simp⟩

/-- A step of the slot ends. -/
theorem kept_conclude {sch : Scheduler Worker} {r : Round} {g now : Nat} {w : Worker} {outcome : Outcome}
    (hk : Kept k (sch.view k).1 (sch.view k).2 [.conclude r k g w outcome]) (hkn : sch.Knows k) :
    Kept k ((sch.conclude k g w outcome now).1.view k).1 ((sch.conclude k g w outcome now).1.view k).2
      ((sch.conclude k g w outcome now).2.discarded.toList.map .discard ++
        [.close r k (sch.conclude k g w outcome now).2]) := by
  obtain ⟨hd, -, hg⟩ := hk.lent r g w outcome (.head _)
  by_cases hgen : g = (sch.slot k).generation
  · obtain ⟨hp, hw⟩ : (sch.slot k).phase ≠ .free ∧ (sch.slot k).worker = none := hg hgen
    have hn : (sch.view k).2 = 1 := hk.listed hp
    subst hgen
    rcases outcome with fault | ⟨delay⟩ | -
    · rw [Scheduler.view_conclude_error hkn]
      exact kept_ending hk.unbarred (by simp [hw]) (by simp) (by simp) (by simp [Scheduler.conclude, Task.isSilent, hd])
        (by simp [Scheduler.conclude]) (by simp [Scheduler.conclude])
    · rw [Scheduler.view_conclude_again hkn _ _ _ hw]
      have hq : (if (sch.slot k).phase = .running then SlotPhase.queued (now + delay) else (sch.slot k).phase) ≠ .free ∧
          (if (sch.slot k).phase = .running then SlotPhase.queued (now + delay) else (sch.slot k).phase) ≠ .running := by
        split
        · simp
        · next hr => exact ⟨hp, hr⟩
      refine kept_ending rfl ?_ (by simp) (fun _ => hn) (by simp [Scheduler.conclude, hw])
        (by simp [Scheduler.conclude, hw]) (by simp [Scheduler.conclude, hw, hq.1])
      intro w' hw'
      obtain rfl := Option.some.inj hw'
      exact ⟨hq.1, hq.2, hd⟩
    · rw [Scheduler.view_conclude_finished hkn]
      exact kept_ending hk.unbarred (by simp [hw]) (by simp) (by simp) (by simp [Scheduler.conclude, Task.isSilent, hd])
        (by simp [Scheduler.conclude]) (by simp [Scheduler.conclude])
  · rw [Scheduler.view_conclude_stale (Ne.symm hgen)]
    -- the only step of the slot that is under way is the one that has lost its place
    have hu : (sch.slot k).phase ≠ .free → (sch.slot k).worker ≠ none := by
      intro hp hw
      obtain ⟨r', w', outcome', hx⟩ := hk.used hp hw
      cases List.mem_singleton.1 hx
      exact hgen rfl
    exact kept_ending hk.unbarred hk.seated hu hk.listed (by simp [Scheduler.conclude, Ne.symm hgen, Task.isSilent, hd])
      (by simp [Scheduler.conclude, Ne.symm hgen]) (by simp [Scheduler.conclude, Ne.symm hgen, Slot.isFree, Scheduler.view])

/-- A slot is started. -/
theorem kept_started {sch : Scheduler Worker} {slot : Nat} (hs : sch.Knows slot) (at_ : Nat)
    (hk : Kept k (sch.view k).1 (sch.view k).2 (t :: rest)) (ha : ∀ x ∈ t :: rest, x.settles k = false)
    (ht : t.concludes k = false) :
    Kept k ((sch.start slot at_).1.view k).1 ((sch.start slot at_).1.view k).2 ([] ++ rest) := by
  rcases eq_or_ne k slot with rfl | hne
  · rw [Scheduler.view_start hs]
    split
    · exact kept_steady hk ha ht (by simp) (by simp)
    · next hst =>
      have hu : (sch.slot k).phase ≠ .free := by
        intro hf
        refine hst ⟨?_, by simp [hf]⟩
        by_contra hw
        obtain ⟨w, hw⟩ := Option.ne_none_iff_exists'.1 hw
        exact (hk.seated w hw).1 hf
      have hlisted : Scheduler.listed (sch.pending.count k) = sch.pending.count k := by
        rw [show sch.pending.count k = 1 from hk.listed hu]
        rfl
      rw [hlisted]
      exact kept_rearm hk ha ht hu (by simp) (by simp)
  · rw [Scheduler.view_start_ne hne]
    exact kept_steady hk ha ht (by simp) (by simp)

/-- A slot is paused. -/
theorem kept_paused {sch : Scheduler Worker} {slot : Nat} (hs : sch.Knows slot)
    (hk : Kept k (sch.view k).1 (sch.view k).2 (t :: rest)) (ha : ∀ x ∈ t :: rest, x.settles k = false)
    (ht : t.concludes k = false) :
    Kept k ((sch.pause slot).1.view k).1 ((sch.pause slot).1.view k).2 ([] ++ rest) := by
  rcases eq_or_ne k slot with rfl | hne
  · rw [Scheduler.view_pause hs]
    split
    · exact kept_steady hk ha ht (by simp) (by simp)
    · next hu => exact kept_rearm hk ha ht hu (by simp) (by simp)
  · rw [Scheduler.view_pause_ne hne]
    exact kept_steady hk ha ht (by simp) (by simp)

/-- A slot that is passed over stays as it is: one that is due holds a worker, since there is no step of it under way. -/
theorem view_passed {sch : Scheduler Worker} {slot now : Nat} (hk : Kept k (sch.view k).1 (sch.view k).2 [t])
    (ht : t.concludes k = false) (hc : ∀ w g, (sch.claim slot now).2 ≠ .step w g) :
    (sch.claim slot now).1.view k = sch.view k := by
  rcases eq_or_ne k slot with rfl | hne
  · by_cases hkk : sch.Knows k
    · rw [Scheduler.view_claim hkk]
      split
      · next hd =>
        have hp : (sch.slot k).phase ≠ .free := by
          intro hf
          simp [Slot.isDue, hf] at hd
        cases hw : (sch.slot k).worker with
        | none =>
          obtain ⟨r, w, outcome, hx⟩ := hk.used hp hw
          rw [← List.mem_singleton.1 hx] at ht
          simp [Task.concludes] at ht
        | some w =>
          refine absurd ?_ (hc w (sch.slot k).generation)
          simp [Scheduler.claim, hd, hw]
      · rfl
    · rw [Scheduler.claim_of_not_knows hkk]
  · exact Scheduler.view_claim_ne hne _

/-- A closed slot is off the list of pending ones if it is free, and steady from then on. -/
theorem kept_closed {r : Round} {c : Conclusion Worker} {n' : Nat} (hk : Kept k s n [.close r k c])
    (hn : s.phase ≠ .free → n' = n) (hn' : s.phase = .free → n' = 0) (hs : ∀ x ∈ new, x.settles k = false)
    (hc : ∀ x ∈ new, x.concludes k = false) : Kept k s n' new where
  stage := .steady hs
  unbarred := hk.unbarred
  seated := hk.seated
  used hp hw := by
    obtain ⟨r', w, outcome, hx⟩ := hk.used hp hw
    cases List.mem_singleton.1 hx
  lent r' g w outcome hx := absurd (hc _ hx) (by simp [Task.concludes])
  listed hp := (hn hp).trans (hk.listed hp)
  unlisted hf := .inl (hn' hf)

/-! ### Turns -/

/-- Silent tasks leave silent tasks. -/
theorem silent_turn (ht : t.isSilent = true) (h : Turn o t o' new) :
    o'.scheduler = o.scheduler ∧ ∀ x ∈ new, x.isSilent = true := by
  cases h with
  | discard => exact ⟨rfl, by simpa [Task.isSilent] using ht⟩
  | silence => exact ⟨rfl, by simp⟩
  | @quiet t _ hq =>
    cases t with
    | script calls =>
      cases calls with
      | nil => cases hq
      | cons c rest => cases ht
    | discard w => cases hq
    | _ => cases ht
  | _ => cases ht

theorem concludes_of_silent {x : Task} (h : x.isSilent = true) : x.concludes k = false := by
  cases x with
  | conclude => cases h
  | _ => rfl

/-- A worker is to be put into some slot. -/
theorem kept_queued (hk : Kept k s n (t :: rest)) (ha : ∀ x ∈ t :: rest, x.settles k = false) (ht : t.concludes k = false)
    {slot delay : Nat} {w : Worker} (hs : ∀ x ∈ new, x.settles k = false) (hc : ∀ x ∈ new, x.concludes k = false) :
    Kept k s n (.stop slot :: .install slot w delay :: new ++ rest) := by
  have hc' : ∀ x ∈ Task.stop slot :: .install slot w delay :: new, x.concludes k = false := by
    simpa [Task.concludes] using hc
  rcases eq_or_ne slot k with rfl | hne
  · refine kept_frame hk ht hc' (.coming (steady_append ha hs)) ?_
    intro r c
    rintro rfl
    exact absurd (ha _ (.head _)) (by simp [Task.settles])
  · exact kept_steady hk ha ht (by simpa [Task.settles, hne] using hs) hc'

/-- What a turn does to a slot of which no change is under way. -/
theorem kept_turn_steady (hkn : o.Known (t :: rest)) (ho : Orderly (t :: rest))
    (hk : Kept k (o.scheduler.view k).1 (o.scheduler.view k).2 (t :: rest)) (ha : ∀ x ∈ t :: rest, x.settles k = false)
    (h : Turn o t o' new) : Kept k (o'.scheduler.view k).1 (o'.scheduler.view k).2 (new ++ rest) := by
  have settles {new : List Task} (hn : ∀ x ∈ new, x.Light o) : ∀ x ∈ new, x.settles k = false :=
    fun x hx => settles_of_light (hn x hx)
  have concludes {new : List Task} (hn : ∀ x ∈ new, x.Light o) : ∀ x ∈ new, x.concludes k = false :=
    fun x hx => concludes_of_light (hn x hx)
  have known {slot : Nat} (hs : t.slot? = some slot) : o.scheduler.Knows slot := hkn.tasks t (.head _) slot hs
  have other {slot : Nat} (hs : t.settles k = decide (slot = k)) : k ≠ slot := by
    rintro rfl
    exact absurd (ha t (.head _)) (by simp [hs])
  cases h with
  | @quiet t _ hq hn =>
    refine kept_steady hk ha ?_ (settles hn) (concludes hn)
    cases t with
    | conclude => cases hq
    | _ => rfl
  | dropPlace hn => exact kept_steady hk ha rfl (settles hn) (concludes hn)
  | openPlace hn | attach _ hn =>
    rw [Scheduler.view_add]
    split
    · next hl =>
      -- nothing is about the new slot yet
      have hne : ¬ o.scheduler.Knows k := by simp [Scheduler.Knows, hl]
      have hz : o.scheduler.pending.count k = 0 := hkn.pending k hne
      rw [hz]
      refine kept_fresh _ fun x hx hs => hne ?_
      rcases List.mem_append.1 hx with hx | hx
      · exact KnownAux.knows_of_light hkn.refers (hn x hx) hs
      · exact hkn.tasks x (.tail _ hx) k hs
    · exact kept_steady hk ha rfl (settles hn) (concludes hn)
  | employ _ hn | engage _ _ hn => exact kept_queued hk ha rfl (settles hn) (concludes hn)
  | request => exact kept_queued hk ha rfl (by simp) (by simp)
  | rehearse _ _ hn =>
    exact kept_steady hk ha rfl (List.forall_mem_append.2 ⟨settles hn, by simp [Task.settles]⟩)
      (List.forall_mem_append.2 ⟨concludes hn, by simp [Task.concludes]⟩)
  | start hs => exact kept_started (hkn.refers _ hs) _ hk ha rfl
  | pause hs => exact kept_paused (hkn.refers _ hs) hk ha rfl
  | @stop slot =>
    have hs : ∀ x ∈ (o.scheduler.stop slot).2.toList.map Task.discard, x.settles k = false := by simp [Task.settles]
    have hc : ∀ x ∈ (o.scheduler.stop slot).2.toList.map Task.discard, x.concludes k = false := by simp [Task.concludes]
    rcases eq_or_ne k slot with rfl | hne
    · rw [Scheduler.view_stop (known rfl)]
      split
      · exact kept_steady hk ha rfl hs hc
      · exact kept_stopped hk (.steady (steady_append ha hs)) hc
    · rw [Scheduler.view_stop_ne hne]
      exact kept_steady hk ha rfl hs hc
  | @install slot =>
    rw [Scheduler.view_install_ne (other rfl)]
    exact kept_steady hk ha rfl (by simp) (by simp)
  | @evict slot =>
    have hne : k ≠ slot := other rfl
    rw [Scheduler.view_evict_ne hne]
    exact kept_steady hk ha rfl (by simp [Task.settles, hne.symm]) (by simp [Task.concludes])
  | @seat slot =>
    rw [Scheduler.view_install_ne (other rfl)]
    exact kept_steady hk ha rfl (by simp) (by simp)
  | @pass r r' slot hc =>
    obtain rfl := ho.alone rfl
    rw [view_passed hk rfl hc]
    exact kept_steady hk ha rfl (by simp [Task.settles]) (by simp [Task.concludes])
  | @work r r' slot g w w' outcome new hc hl hn =>
    obtain rfl := ho.alone rfl
    rcases eq_or_ne slot k with rfl | hne
    · obtain ⟨hd, hw, rfl⟩ := Scheduler.claim_step hc
      rw [Scheduler.view_claim (Scheduler.knows_of_worker hw), if_pos hd, if_neg (by simp [hw]), List.append_nil]
      exact kept_lent hk hw hl (settles hn) (concludes hn)
    · rw [Scheduler.view_claim_ne hne.symm]
      exact kept_steady hk ha rfl (List.forall_mem_append.2 ⟨settles hn, by simp [Task.settles]⟩)
        (List.forall_mem_append.2 ⟨concludes hn, by simp [Task.concludes, hne]⟩)
  | @conclude r slot g now w outcome =>
    obtain rfl := ho.alone rfl
    rcases eq_or_ne slot k with rfl | hne
    · rw [List.append_nil]
      exact kept_conclude hk (known rfl)
    · rw [Scheduler.view_conclude_ne hne.symm]
      exact kept_steady hk ha (by simp [Task.concludes, hne])
        (by simp [Task.settles, hne, or_imp, forall_and]) (by simp [Task.concludes, or_imp, forall_and])
  | @closeReturning r slot c w new _ hn =>
    rw [Scheduler.view_restore_ne (other rfl)]
    rcases hn with rfl | ⟨r', rfl⟩ <;> exact kept_steady hk ha rfl (by simp [Task.settles]) (by simp [Task.concludes])
  | @closeFinished r slot c new _ _ hn =>
    rw [Scheduler.view_delist_ne (other rfl)]
    rcases hn with rfl | ⟨r', rfl⟩ <;> exact kept_steady hk ha rfl (by simp [Task.settles]) (by simp [Task.concludes])
  | closeOpen _ _ hn | endRound _ hn =>
    rcases hn with rfl | ⟨r', rfl⟩ <;> exact kept_steady hk ha rfl (by simp [Task.settles]) (by simp [Task.concludes])
  | _ => exact kept_steady hk ha rfl (by simp [Task.settles]) (by simp [Task.concludes])

/-- The slot is stopped before a worker is put in. -/
theorem kept_turn_coming {w : Worker} {delay : Nat} (hkn : o.scheduler.Knows k)
    (hk : Kept k (o.scheduler.view k).1 (o.scheduler.view k).2 (.stop k :: .install k w delay :: rest))
    (ha : ∀ x ∈ rest, x.settles k = false) (h : Turn o (.stop k) o' new) :
    Kept k (o'.scheduler.view k).1 (o'.scheduler.view k).2 (new ++ .install k w delay :: rest) := by
  cases h with
  | quiet hq => cases hq
  | stop =>
    have hc : ∀ x ∈ (o.scheduler.stop k).2.toList.map Task.discard, x.concludes k = false := by simp [Task.concludes]
    have hsilent : ∀ x ∈ (o.scheduler.stop k).2.toList.map Task.discard, x.isSilent = true := by
      intro x hx
      obtain ⟨old, hold, rfl⟩ := List.mem_map.1 hx
      rw [Scheduler.stop_snd, Option.mem_toList] at hold
      simpa [Task.isSilent] using (hk.seated old hold).2.2
    rw [Scheduler.view_stop hkn]
    split
    · next hf => exact kept_frame hk rfl hc (.cleared hsilent ha hf.1 hf.2) (by simp)
    · exact kept_stopped hk (.cleared hsilent ha rfl rfl) hc

/-- A worker is put in. -/
theorem kept_turn_install {w : Worker} {delay : Nat} (hkn : o.scheduler.Knows k)
    (hk : Kept k (o.scheduler.view k).1 (o.scheduler.view k).2 (.install k w delay :: rest))
    (ha : ∀ x ∈ rest, x.settles k = false) (hf : (o.scheduler.slot k).phase = .free)
    (hw : (o.scheduler.slot k).worker = none) (hd : w.onDrop = []) (h : Turn o (.install k w delay) o' new) :
    Kept k (o'.scheduler.view k).1 (o'.scheduler.view k).2 (new ++ rest) := by
  cases h with
  | quiet hq => cases hq
  | install =>
    have hn : (o.scheduler.view k).2 = 0 := by
      rcases hk.unlisted hf with hn | ⟨r, c, hx⟩
      · exact hn
      · rcases List.mem_cons.1 hx with hx | hx
        · cases hx
        · exact absurd (ha _ hx) (by simp [Task.settles])
    rw [Scheduler.view_install hkn]
    exact kept_installed hk ha hf hn hd
  | evict _ hold =>
    rw [hw] at hold
    cases hold

/-- A slot is closed. -/
theorem kept_turn_close {r : Round} {c : Conclusion Worker}
    (hk : Kept k (o.scheduler.view k).1 (o.scheduler.view k).2 [.close r k c]) (hr : c.returning = none)
    (hf : c.finished = true ↔ (o.scheduler.slot k).phase = .free) (h : Turn o (.close r k c) o' new) :
    Kept k (o'.scheduler.view k).1 (o'.scheduler.view k).2 new := by
  cases h with
  | quiet hq => cases hq
  | closeReturning hw =>
    rw [hr] at hw
    cases hw
  | closeFinished _ hfin hn =>
    rw [Scheduler.view_delist]
    refine kept_closed hk (fun hp => absurd (hf.1 hfin) hp) (fun _ => rfl) ?_ ?_ <;>
      rcases hn with rfl | ⟨r', rfl⟩ <;> simp [Task.settles, Task.concludes]
  | closeOpen _ hfin hn =>
    refine kept_closed hk (fun _ => rfl) (fun hp => ?_) ?_ ?_
    · rw [hf.2 hp] at hfin
      cases hfin
    all_goals rcases hn with rfl | ⟨r', rfl⟩ <;> simp [Task.settles, Task.concludes]

/-- Silent tasks are done before the slot is settled. -/
theorem kept_turn_silent (hk : Kept k (o.scheduler.view k).1 (o.scheduler.view k).2 (t :: rest)) (ht : t.isSilent = true)
    (hst : ∀ pre : List Task, (∀ x ∈ pre, x.isSilent = true) → Stage k (o.scheduler.view k).1 (pre ++ rest))
    (h : Turn o t o' new) : Kept k (o'.scheduler.view k).1 (o'.scheduler.view k).2 (new ++ rest) := by
  obtain ⟨hs, hn⟩ := silent_turn ht h
  rw [hs]
  refine kept_frame hk (concludes_of_silent ht) (fun x hx => concludes_of_silent (hn x hx)) (hst new hn) ?_
  intro r c
  rintro rfl
  cases ht

end SlotInvariantAux

open SlotInvariantAux

/-- A turn keeps what is true of a slot on a course that is calm about it. -/
theorem Turn.kept {k : Nat} {o o' : Office} {t : Task} {rest new : List Task} (hkn : o.Known (t :: rest))
    (ho : Orderly (t :: rest)) (hcalm : Calm k (t :: rest))
    (hk : Kept k (o.scheduler.view k).1 (o.scheduler.view k).2 (t :: rest)) (h : Turn o t o' new) :
    Kept k (o'.scheduler.view k).1 (o'.scheduler.view k).2 (new ++ rest) := by
  have hstage := hk.stage
  generalize ha : t :: rest = agenda at hstage
  cases hstage with
  | steady hs => exact kept_turn_steady hkn ho hk (ha ▸ hs) h
  | coming hs =>
    obtain ⟨rfl, rfl⟩ := List.cons.inj ha
    exact kept_turn_coming (hkn.tasks _ (.head _) k rfl) hk hs h
  | @cleared pre w delay rest' hp hs hf hw =>
    cases pre with
    | nil =>
      obtain ⟨rfl, rfl⟩ := List.cons.inj ha
      exact kept_turn_install (hkn.tasks _ (.head _) k rfl) hk hs hf hw (hcalm rfl) h
    | cons x pre =>
      rw [List.cons_append] at ha
      obtain ⟨rfl, rfl⟩ := List.cons.inj ha
      refine kept_turn_silent hk (hp _ (.head _)) ?_ h
      intro pre' hp'
      rw [← List.append_assoc]
      refine .cleared ?_ hs hf hw
      intro y hy
      rcases List.mem_append.1 hy with hy | hy
      · exact hp' y hy
      · exact hp y (.tail _ hy)
  | @ending pre r c hp hr hf =>
    cases pre with
    | nil =>
      obtain ⟨rfl, rfl⟩ := List.cons.inj ha
      rw [List.append_nil]
      exact kept_turn_close hk hr hf h
    | cons x pre =>
      rw [List.cons_append] at ha
      obtain ⟨rfl, rfl⟩ := List.cons.inj ha
      refine kept_turn_silent hk (hp _ (.head _)) ?_ h
      intro pre' hp'
      rw [← List.append_assoc]
      refine .ending ?_ hr hf
      intro y hy
      rcases List.mem_append.1 hy with hy | hy
      · exact hp' y hy
      · exact hp y (.tail _ hy)

/-- Nothing is under way with a slot of a session in which nothing is set up. -/
theorem kept_new (k : Nat) (options : SchedulerOptions) :
    Kept k ((Session.new options).scheduler.view k).1 ((Session.new options).scheduler.view k).2 [] :=
  kept_fresh "" (by simp)

/-- What is true of a slot when nothing is to be done is true when the host asks something. -/
theorem kept_call {k : Nat} {s : Slot Worker} {n : Nat} (hk : Kept k s n []) (c : Call) : Kept k s n [.call c .host] where
  stage := .steady (by simp [Task.settles])
  unbarred := hk.unbarred
  seated := hk.seated
  used hp hw := by
    obtain ⟨r, w, outcome, hx⟩ := hk.used hp hw
    cases hx
  lent r g w outcome hx := by cases List.mem_singleton.1 hx
  listed := hk.listed
  unlisted hf := by
    rcases hk.unlisted hf with hn | ⟨r, c', hx⟩
    · exact .inl hn
    · cases hx

/-- What is known of a session's work on a course that is calm about a slot. -/
structure Calmly (k : Nat) (o : Office) (agenda : List Task) : Prop where
  known : o.Known agenda
  orderly : Orderly agenda
  kept : Kept k (o.scheduler.view k).1 (o.scheduler.view k).2 agenda

theorem calmly_new (k : Nat) (options : SchedulerOptions) : Calmly k (Session.new options).office [] :=
  ⟨Office.known_new options, orderly_nil, kept_new k options⟩

theorem Calmly.call {k : Nat} {o : Office} (h : Calmly k o []) (c : Call) : Calmly k o [.call c .host] :=
  ⟨⟨h.known.refers, by simp [Task.slot?], h.known.pending⟩, orderly_call c, kept_call h.kept c⟩

theorem Turn.calmly {k : Nat} {o o' : Office} {t : Task} {rest new : List Task} (hcalm : Calm k (t :: rest))
    (hi : Calmly k o (t :: rest)) (h : Turn o t o' new) : Calmly k o' (new ++ rest) :=
  ⟨h.known hi.known, h.orderly hi.orderly (not_reenters_of_calm hcalm), h.kept hi.known hi.orderly hcalm hi.kept⟩

/-- A slot is kept along every course that is calm about it, up to a crash at another slot. -/
theorem Machine.Course.calmly {past : List Machine} {m : Machine} (run : Course past m) {k : Nat}
    (calm : ∀ p ∈ past, Calm k p.agenda) : m.Crashed ∨ Calmly k m.session.office m.agenda :=
  run.invariant calm (calmly_new k) (fun c h => h.call c) fun hc hi h => h.calmly hc hi

end LiveHighlight
