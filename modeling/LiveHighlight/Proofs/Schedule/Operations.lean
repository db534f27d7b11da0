import Mathlib.Data.List.Basic
import LiveHighlight.Schedule.Scheduler

/-!
# What the operations of a scheduler do to one slot

`Scheduler.view` is all that the scheduler says about one slot. An operation on another slot leaves it alone (the lemmas named
`..._ne`), and an operation on the slot itself changes it as its `view_...` lemma says. Slots are never taken away, so a number
that was given stays known (`length_...`).
-/

namespace LiveHighlight

namespace Scheduler

variable {ω : Type} {s : Scheduler ω} {id k : Nat}

/-- What the scheduler says about one slot: the slot, and how often it is on the list of pending ones. -/
def view (s : Scheduler ω) (k : Nat) : Slot ω × Nat := (s.slot k, s.pending.count k)

/-- Whether the number of a slot was given. -/
def Knows (s : Scheduler ω) (id : Nat) : Prop := id < s.slots.length

instance (s : Scheduler ω) (id : Nat) : Decidable (s.Knows id) := inferInstanceAs (Decidable (id < s.slots.length))

/-- How often a slot is on the list once it is put there. -/
def listed (n : Nat) : Nat := if n = 0 then 1 else n

theorem slot_of_not_knows (h : ¬ s.Knows id) : s.slot id = .fresh "" := by
  simp only [Knows, Nat.not_lt] at h
  simp [slot, List.getElem?_eq_none h]

/-- A slot that holds a worker is known. -/
theorem knows_of_worker {w : ω} (h : (s.slot id).worker = some w) : s.Knows id := by
  by_contra hn
  rw [slot_of_not_knows hn] at h
  simp [Slot.fresh] at h

/-- A slot that is not free is known. -/
theorem knows_of_phase (h : (s.slot id).phase ≠ .free) : s.Knows id := by
  by_contra hn
  rw [slot_of_not_knows hn] at h
  exact h rfl

/-! ## The parts of operations -/

@[simp] theorem slot_update_ne (h : k ≠ id) (f : Slot ω → Slot ω) : (s.update id f).slot k = s.slot k := by
  simp [slot, update, Ne.symm h]

@[simp] theorem slot_update_self (h : s.Knows id) (f : Slot ω → Slot ω) : (s.update id f).slot id = f (s.slot id) := by
  simp [slot, update, List.getElem?_eq_getElem h]

@[simp] theorem pending_update (f : Slot ω → Slot ω) : (s.update id f).pending = s.pending := rfl

@[simp] theorem length_update (f : Slot ω → Slot ω) : (s.update id f).slots.length = s.slots.length := by
  simp [update]

@[simp] theorem slots_enlist : (s.enlist id).slots = s.slots := by
  unfold enlist
  split <;> rfl

@[simp] theorem slots_delist : (s.delist id).slots = s.slots := rfl

@[simp] theorem slot_enlist : (s.enlist id).slot k = s.slot k := by simp [slot]

@[simp] theorem slot_delist : (s.delist id).slot k = s.slot k := rfl

theorem count_enlist_ne (h : k ≠ id) : (s.enlist id).pending.count k = s.pending.count k := by
  unfold enlist
  split
  · rfl
  · simp [List.count_append, List.count_singleton, beq_eq_false_iff_ne.2 (Ne.symm h)]

theorem count_enlist_self : (s.enlist id).pending.count id = listed (s.pending.count id) := by
  unfold enlist listed
  split
  · next h => rw [if_neg (Nat.ne_of_gt (List.count_pos_iff.2 h))]
  · next h => simp [List.count_append, List.count_eq_zero.2 h]

theorem count_delist_ne (h : k ≠ id) : (s.delist id).pending.count k = s.pending.count k := by
  simp [delist, List.count_filter, h]

theorem count_delist_self : (s.delist id).pending.count id = 0 := by
  simp [delist, List.count_eq_zero]

@[simp] theorem slot_appoint_ne (h : k ≠ id) (at_ : Nat) : (s.appoint id at_).slot k = s.slot k :=
  slot_update_ne (s := s) h _

@[simp] theorem slot_appoint_self (h : s.Knows id) (at_ : Nat) :
    (s.appoint id at_).slot id = { s.slot id with phase := .queued at_, seq := s.nextSeq } :=
  slot_update_self h _

@[simp] theorem pending_appoint (at_ : Nat) : (s.appoint id at_).pending = s.pending := rfl

@[simp] theorem length_appoint (at_ : Nat) : (s.appoint id at_).slots.length = s.slots.length := by
  simp [appoint]

/-! ## New slots -/

@[simp] theorem length_add (label : String) : (s.add label).1.slots.length = s.slots.length + 1 := by simp [add]

/-- A new slot is free; of the others nothing changes. -/
theorem view_add (label : String) :
    (s.add label).1.view k = if k = s.slots.length then (.fresh label, s.pending.count k) else s.view k := by
  simp only [view, slot, add]
  rcases Nat.lt_trichotomy k s.slots.length with h | h | h
  · rw [List.getElem?_append_left h, if_neg (Nat.ne_of_lt h)]
  · subst h
    simp
  · rw [if_neg (Nat.ne_of_gt h), List.getElem?_eq_none (by simp; omega), List.getElem?_eq_none (by omega)]

/-- Stopping a slot hands back the worker that it holds. -/
theorem stop_snd : (s.stop id).2 = (s.slot id).worker := by
  simp only [stop, Option.isNone_iff_eq_none]
  split
  · next h => rw [h.2]
  · rfl

/-- A worker that is taken out for a step. -/
theorem claim_step {now g : Nat} {w : ω} (h : (s.claim id now).2 = .step w g) :
    (s.slot id).isDue now = true ∧ (s.slot id).worker = some w ∧ (s.slot id).generation = g := by
  simp only [claim] at h
  split at h
  · next hd =>
    cases hw : (s.slot id).worker with
    | none => simp [hw] at h
    | some old =>
      simp only [hw, Claim.step.injEq] at h
      exact ⟨hd, by rw [h.1], h.2⟩
  · cases h

/-! ## Operations on another slot -/

section Others

variable (h : k ≠ id)

include h

theorem view_stop_ne : (s.stop id).1.view k = s.view k := by
  unfold stop
  dsimp only
  split
  · rfl
  · simp [view, h, count_delist_ne]

theorem view_evict_ne : (s.evict id).view k = s.view k := by simp [view, evict, h]

theorem view_install_ne (w : ω) (at_ : Nat) : (s.install id w at_).view k = s.view k := by
  simp [view, install, h, count_enlist_ne]

theorem view_start_ne (at_ : Nat) : (s.start id at_).1.view k = s.view k := by
  unfold start
  dsimp only
  split
  · rfl
  · simp [view, h, count_enlist_ne]

theorem view_pause_ne : (s.pause id).1.view k = s.view k := by
  unfold pause
  split <;> simp [view, h]

theorem view_claim_ne (now : Nat) : (s.claim id now).1.view k = s.view k := by
  unfold claim
  dsimp only
  split
  · split <;> simp [view, h, count_delist_ne]
  · rfl

theorem view_conclude_ne (g : Nat) (w : ω) (out : Outcome) (now : Nat) :
    (s.conclude id g w out now).1.view k = s.view k := by
  unfold conclude
  dsimp only
  split
  · rfl
  · split
    · split <;> split <;> simp [view, h, restore, evict]
    · simp [view, h]
    · simp [view, h]

theorem view_restore_ne (w : ω) : (s.restore id w).view k = s.view k := by simp [view, restore, h]

theorem view_delist_ne : (s.delist id).view k = s.view k := by simp [view, count_delist_ne h]

end Others

/-! ## Operations on the slot itself -/

theorem view_delist : (s.delist k).view k = (s.slot k, 0) := by simp [view, count_delist_self]

/-- A step that ends after its slot was stopped leaves the slot alone. -/
theorem view_conclude_stale {g : Nat} (hg : (s.slot k).generation ≠ g) (w : ω) (out : Outcome) (now : Nat) :
    (s.conclude k g w out now).1.view k = s.view k := by
  simp [conclude, hg]

section Self

variable (h : s.Knows k)

include h

/-- A stopped slot is free and waits for nothing; a free slot without a worker is left alone. -/
theorem view_stop :
    (s.stop k).1.view k =
      if (s.slot k).phase = .free ∧ (s.slot k).worker = none then s.view k
      else ({ s.slot k with worker := none, phase := .free, generation := (s.slot k).generation + 1 }, 0) := by
  simp only [stop, Option.isNone_iff_eq_none]
  split
  · rfl
  · simp [view, h, count_delist_self]

theorem view_evict : (s.evict k).view k = ({ s.slot k with worker := none, barred := true }, s.pending.count k) := by
  simp [view, evict, h]

theorem view_install (w : ω) (at_ : Nat) :
    (s.install k w at_).view k =
      ({ s.slot k with worker := some w, barred := false, phase := .queued at_, seq := s.nextSeq },
        listed (s.pending.count k)) := by
  have hk : (s.update k fun slot => { slot with worker := some w, barred := false }).Knows k := by
    simpa [Knows] using h
  simp only [view, install, slot_enlist, slot_appoint_self hk, slot_update_self h, count_enlist_self, pending_appoint,
    pending_update]
  rfl

/-- Only a slot with a worker, or with one under way that was given no appointment yet, is started. -/
theorem view_start (at_ : Nat) :
    (s.start k at_).1.view k =
      if (s.slot k).worker = none ∧ (s.slot k).phase ≠ .running then s.view k
      else ({ s.slot k with phase := .queued at_, seq := s.nextSeq }, listed (s.pending.count k)) := by
  simp only [start, Option.isNone_iff_eq_none]
  split
  · rfl
  · simp [view, h, count_enlist_self]

theorem view_pause :
    (s.pause k).1.view k =
      if (s.slot k).phase = .free then s.view k else ({ s.slot k with phase := .paused }, s.pending.count k) := by
  unfold pause
  split
  · next hp => rw [if_pos hp]
  · next hp => rw [if_neg (by simp [hp])]; simp [view, ← hp]
  · next hp => rw [if_neg (by simp [hp])]; simp [view, h]
  · next hp => rw [if_neg (by simp [hp])]; simp [view, h]

theorem view_restore (w : ω) :
    (s.restore k w).view k = ({ s.slot k with worker := some w, barred := false }, s.pending.count k) := by
  simp [view, restore, h]

/-- A due slot whose worker is gone is freed, one with a worker lends it for a step, and any other slot is left alone. -/
theorem view_claim (now : Nat) :
    (s.claim k now).1.view k =
      if (s.slot k).isDue now then
        if (s.slot k).worker = none then ({ s.slot k with phase := .free }, 0)
        else ({ s.slot k with worker := none, phase := .running }, s.pending.count k)
      else s.view k := by
  unfold claim
  dsimp only
  split
  · split
    · next hw => simp [hw, view, h, count_delist_self]
    · next hw => simp [hw, view, h]
  · rfl

/-- A worker that goes on takes its place again; a slot that runs gets an appointment. -/
theorem view_conclude_again (w : ω) (delay now : Nat) (hw : (s.slot k).worker = none) :
    (s.conclude k (s.slot k).generation w (.ok (.again delay)) now).1.view k =
      ({ s.slot k with
          worker := some w, barred := false
          phase := if (s.slot k).phase = .running then .queued (now + delay) else (s.slot k).phase
          seq := if (s.slot k).phase = .running then s.nextSeq else (s.slot k).seq },
        s.pending.count k) := by
  have hk (at_ : Nat) : (s.appoint k at_).Knows k := by simpa [Knows] using h
  by_cases hp : (s.slot k).phase = .running
  · simp [conclude, hp, hw, view_restore (hk _), h]
  · simp [conclude, hp, hw, view_restore h]

/-- A worker that goes on takes its place again from another one that was put in; until that one is discarded the slot is empty
and barred. -/
theorem view_conclude_over (w : ω) (delay now : Nat) {other : ω} (hw : (s.slot k).worker = some other) :
    (s.conclude k (s.slot k).generation w (.ok (.again delay)) now).1.view k =
      ({ s.slot k with
          worker := none, barred := true
          phase := if (s.slot k).phase = .running then .queued (now + delay) else (s.slot k).phase
          seq := if (s.slot k).phase = .running then s.nextSeq else (s.slot k).seq },
        s.pending.count k) := by
  have hk (at_ : Nat) : (s.appoint k at_).Knows k := by simpa [Knows] using h
  by_cases hp : (s.slot k).phase = .running
  · simp [conclude, hp, hw, view_evict (hk _), h]
  · simp [conclude, hp, hw, view_evict h]

/-- A slot whose worker is done is free. -/
theorem view_conclude_finished (w : ω) (now : Nat) :
    (s.conclude k (s.slot k).generation w (.ok .finished) now).1.view k =
      ({ s.slot k with phase := .free }, s.pending.count k) := by
  simp [conclude, view, h]

/-- A slot whose worker failed is free. -/
theorem view_conclude_error (w : ω) (fault : WorkFault) (now : Nat) :
    (s.conclude k (s.slot k).generation w (.error fault) now).1.view k =
      ({ s.slot k with phase := .free, generation := (s.slot k).generation + 1 }, s.pending.count k) := by
  simp [conclude, view, h]

end Self

/-! ## What operations leave as it is -/

/-- What a change of a slot leaves as it is stays as it is in every slot. -/
theorem field_update {α : Type} (p : Slot ω → α) {f : Slot ω → Slot ω} (hf : ∀ slot, p (f slot) = p slot) :
    p ((s.update id f).slot k) = p (s.slot k) := by
  rcases eq_or_ne k id with rfl | hne
  · by_cases hk : s.Knows k
    · rw [slot_update_self hk, hf]
    · rw [slot_of_not_knows hk, slot_of_not_knows (by simpa [Knows] using hk)]
  · rw [slot_update_ne hne]

theorem worker_appoint (at_ : Nat) : ((s.appoint id at_).slot k).worker = (s.slot k).worker :=
  field_update (s := s) Slot.worker fun _ => rfl

theorem generation_appoint (at_ : Nat) : ((s.appoint id at_).slot k).generation = (s.slot k).generation :=
  field_update (s := s) Slot.generation fun _ => rfl

@[simp] theorem worker_start (at_ : Nat) : ((s.start id at_).1.slot k).worker = (s.slot k).worker := by
  unfold start
  dsimp only
  split
  · rfl
  · rw [slot_enlist, worker_appoint]

@[simp] theorem generation_start (at_ : Nat) : ((s.start id at_).1.slot k).generation = (s.slot k).generation := by
  unfold start
  dsimp only
  split
  · rfl
  · rw [slot_enlist, generation_appoint]

@[simp] theorem worker_pause : ((s.pause id).1.slot k).worker = (s.slot k).worker := by
  unfold pause
  split
  · rfl
  · rfl
  · exact field_update Slot.worker fun _ => rfl
  · exact field_update Slot.worker fun _ => rfl

@[simp] theorem generation_pause : ((s.pause id).1.slot k).generation = (s.slot k).generation := by
  unfold pause
  split
  · rfl
  · rfl
  · exact field_update Slot.generation fun _ => rfl
  · exact field_update Slot.generation fun _ => rfl

@[simp] theorem generation_install (w : ω) (at_ : Nat) :
    ((s.install id w at_).slot k).generation = (s.slot k).generation := by
  rw [install, slot_enlist, generation_appoint]
  exact field_update Slot.generation fun _ => rfl

@[simp] theorem generation_evict : ((s.evict id).slot k).generation = (s.slot k).generation :=
  field_update Slot.generation fun _ => rfl

@[simp] theorem generation_claim (now : Nat) : ((s.claim id now).1.slot k).generation = (s.slot k).generation := by
  unfold claim
  dsimp only
  split
  · split
    · exact field_update Slot.generation fun _ => rfl
    · exact field_update Slot.generation fun _ => rfl
  · rfl

/-- A slot that is passed over keeps its worker. -/
theorem worker_claim_of_not_step {now : Nat} (hc : ∀ w g, (s.claim id now).2 ≠ .step w g) :
    ((s.claim id now).1.slot k).worker = (s.slot k).worker := by
  unfold claim at hc ⊢
  dsimp only at hc ⊢
  split at hc
  · next hd =>
    cases hw : (s.slot id).worker with
    | some w => exact absurd (by rw [hw]) (hc w (s.slot id).generation)
    | none =>
      rw [if_pos hd]
      exact field_update Slot.worker fun _ => rfl
  · next hd => rw [if_neg hd]

/-! ## Numbers of slots -/

@[simp] theorem length_stop : (s.stop id).1.slots.length = s.slots.length := by
  unfold stop
  dsimp only
  split <;> simp

@[simp] theorem length_evict : (s.evict id).slots.length = s.slots.length := by simp [evict]

@[simp] theorem length_install (w : ω) (at_ : Nat) : (s.install id w at_).slots.length = s.slots.length := by
  simp [install]

@[simp] theorem length_start (at_ : Nat) : (s.start id at_).1.slots.length = s.slots.length := by
  unfold start
  dsimp only
  split <;> simp

@[simp] theorem length_pause : (s.pause id).1.slots.length = s.slots.length := by
  unfold pause
  split <;> simp

@[simp] theorem length_claim (now : Nat) : (s.claim id now).1.slots.length = s.slots.length := by
  unfold claim
  dsimp only
  split
  · split <;> simp
  · rfl

@[simp] theorem length_restore (w : ω) : (s.restore id w).slots.length = s.slots.length := by simp [restore]

@[simp] theorem length_conclude (g : Nat) (w : ω) (out : Outcome) (now : Nat) :
    (s.conclude id g w out now).1.slots.length = s.slots.length := by
  unfold conclude
  dsimp only
  split
  · rfl
  · split
    · split <;> split <;> simp
    · simp
    · simp

/-! ## The next number -/

@[simp] theorem nextSeq_enlist : (s.enlist k).nextSeq = s.nextSeq := by
  unfold enlist
  split <;> rfl

theorem nextSeq_install (w : ω) (at_ : Nat) : (s.install k w at_).nextSeq = s.nextSeq + 1 := by
  rw [install, nextSeq_enlist]
  rfl

theorem nextSeq_start {at_ : Nat} (h : ¬ ((s.slot k).worker = none ∧ (s.slot k).phase ≠ .running)) :
    (s.start k at_).1.nextSeq = s.nextSeq + 1 := by
  simp only [start, Option.isNone_iff_eq_none, if_neg h, nextSeq_enlist]
  rfl

/-- A step after which the worker goes on takes a number if its slot was given no appointment meanwhile. -/
theorem nextSeq_conclude_again (w : ω) (delay now : Nat) :
    (s.conclude k (s.slot k).generation w (.ok (.again delay)) now).1.nextSeq =
      if (s.slot k).phase = .running then s.nextSeq + 1 else s.nextSeq := by
  by_cases hp : (s.slot k).phase = .running
  · simp only [conclude, ne_eq, not_true_eq_false, if_false, if_pos hp]
    split <;> rfl
  · simp only [conclude, ne_eq, not_true_eq_false, if_false, if_neg hp]
    split <;> rfl

end Scheduler

end LiveHighlight
