import LiveHighlight.Proofs.Schedule.Operations

/-!
# Who holds a worker

`Scheduler.holders p` is the number of slots that hold a worker with a property. A worker that an operation takes out of a slot is
handed on, and no operation puts one in that it was not given: what an operation hands on and what the slots hold afterwards is
never more than what they held before and what it was given.
-/

namespace LiveHighlight

namespace Scheduler

variable {ω : Type} (s : Scheduler ω) (id : Nat) (p : ω → Bool)

/-- The number of slots that hold a worker with a property. -/
def holders (s : Scheduler ω) (p : ω → Bool) : Nat := s.slots.countP (·.worker.any p)

theorem countP_modify {α : Type} (q : α → Bool) (f : α → α) (l : List α) (i : Nat) (a : α) (h : l[i]? = some a) :
    (l.modify i f).countP q + (q a).toNat = l.countP q + (q (f a)).toNat := by
  induction l generalizing i with
  | nil => cases h
  | cons x l ih =>
    cases i with
    | zero =>
      obtain rfl := Option.some.inj h
      simp only [List.modify_zero_cons, List.countP_cons]
      cases q x <;> cases q (f x) <;> simp
    | succ i =>
      have hi := ih i h
      simp only [List.modify_succ_cons, List.countP_cons]
      omega

/-- A change of a slot exchanges its worker. -/
theorem holders_update (f : Slot ω → Slot ω) (hf : ¬ s.Knows id → (f (s.slot id)).worker = none) :
    (s.update id f).holders p + ((s.slot id).worker.any p).toNat =
      s.holders p + ((f (s.slot id)).worker.any p).toNat := by
  by_cases hk : s.Knows id
  · have hs : s.slots[id]? = some (s.slot id) := by simp [slot, List.getElem?_eq_getElem hk]
    exact countP_modify _ f s.slots id _ hs
  · have hu : s.update id f = s := by
      simp only [Knows, Nat.not_lt] at hk
      simp [update, List.modify_eq_self hk]
    rw [hu, hf hk, slot_of_not_knows hk]
    rfl

/-- A change that leaves workers alone exchanges none. -/
theorem holders_update_same (f : Slot ω → Slot ω) (hf : ∀ slot, (f slot).worker = slot.worker) :
    (s.update id f).holders p = s.holders p := by
  have h := holders_update s id p f fun hk => by rw [hf, slot_of_not_knows hk]; rfl
  rw [hf] at h
  omega

/-- A change that takes the worker out. -/
theorem holders_update_none (f : Slot ω → Slot ω) (hf : ∀ slot, (f slot).worker = none) :
    (s.update id f).holders p + ((s.slot id).worker.any p).toNat = s.holders p := by
  have h := holders_update s id p f fun _ => hf _
  simpa [hf] using h

/-- A change that puts a worker in. -/
theorem holders_update_some {w : ω} (f : Slot ω → Slot ω) (hf : ∀ slot, (f slot).worker = some w) :
    (s.update id f).holders p ≤ s.holders p + (p w).toNat := by
  by_cases hk : s.Knows id
  · have h := holders_update s id p f fun hn => absurd hk hn
    simp only [hf, Option.any_some] at h
    omega
  · simp only [Knows, Nat.not_lt] at hk
    simp [update, List.modify_eq_self hk]

@[simp] theorem holders_delist : (s.delist id).holders p = s.holders p := rfl

@[simp] theorem holders_enlist : (s.enlist id).holders p = s.holders p := by simp [holders]

@[simp] theorem holders_appoint (at_ : Nat) : (s.appoint id at_).holders p = s.holders p :=
  holders_update_same s id p _ fun _ => rfl

@[simp] theorem holders_add (label : String) : (s.add label).1.holders p = s.holders p := by
  simp [holders, add, Slot.fresh]

@[simp] theorem holders_start (at_ : Nat) : (s.start id at_).1.holders p = s.holders p := by
  unfold start
  dsimp only
  split <;> simp

@[simp] theorem holders_pause : (s.pause id).1.holders p = s.holders p := by
  unfold pause
  split
  · rfl
  · rfl
  · exact holders_update_same s id p _ fun _ => rfl
  · exact holders_update_same s id p _ fun _ => rfl

theorem holders_stop : (s.stop id).1.holders p + ((s.stop id).2.any p).toNat = s.holders p := by
  rw [stop_snd]
  simp only [stop, Option.isNone_iff_eq_none]
  split
  · next h => simp [h.2]
  · exact holders_update_none s id p _ fun _ => rfl

theorem holders_evict : (s.evict id).holders p + ((s.slot id).worker.any p).toNat = s.holders p :=
  holders_update_none s id p _ fun _ => rfl

theorem holders_install (w : ω) (at_ : Nat) : (s.install id w at_).holders p ≤ s.holders p + (p w).toNat := by
  simpa [install] using holders_update_some s id p _ fun _ => rfl

theorem holders_restore (w : ω) : (s.restore id w).holders p ≤ s.holders p + (p w).toNat :=
  holders_update_some s id p _ fun _ => rfl

variable {s id} in
theorem holders_claim_step {now g : Nat} {w : ω} (h : (s.claim id now).2 = .step w g) :
    (s.claim id now).1.holders p + (p w).toNat = s.holders p := by
  obtain ⟨hd, hw, -⟩ := claim_step h
  have hu := holders_update_none s id p
    (fun slot => { slot with worker := none, phase := .running }) fun _ => rfl
  simpa [claim, hd, hw] using hu

theorem holders_claim_le (now : Nat) : (s.claim id now).1.holders p ≤ s.holders p := by
  unfold claim
  dsimp only
  split
  · split
    · exact Nat.le_of_eq (holders_update_same s id p _ fun _ => rfl)
    · exact Nat.le_of_add_right_le (Nat.le_of_eq (holders_update_none s id p _ fun _ => rfl))
  · exact Nat.le_refl _

theorem holders_conclude (g : Nat) (w : ω) (outcome : Outcome) (now : Nat) :
    (s.conclude id g w outcome now).1.holders p + ((s.conclude id g w outcome now).2.discarded.any p).toNat +
      ((s.conclude id g w outcome now).2.returning.any p).toNat ≤ s.holders p + (p w).toNat := by
  unfold conclude
  dsimp only
  split
  · simp
  · split
    · next delay =>
      have happ : (if (s.slot id).phase = .running then s.appoint id (now + delay) else s).holders p = s.holders p := by
        split <;> simp
      cases hw : (s.slot id).worker with
      | none =>
        have hr := holders_restore (if (s.slot id).phase = .running then s.appoint id (now + delay) else s) id p w
        rw [happ] at hr
        simpa using hr
      | some other =>
        have he := holders_evict (if (s.slot id).phase = .running then s.appoint id (now + delay) else s) id p
        have hw' : ((if (s.slot id).phase = .running then s.appoint id (now + delay) else s).slot id).worker = some other := by
          split
          · rw [slot_appoint_self (knows_of_worker hw)]
            exact hw
          · exact hw
        rw [happ, hw'] at he
        simp only [Option.any_some] at he ⊢
        omega
    · simp [holders_update_same s id p (fun slot => { slot with phase := .free }) fun _ => rfl]
    · simp [holders_update_same s id p
        (fun slot => { slot with phase := .free, generation := slot.generation + 1 }) fun _ => rfl]

end Scheduler

end LiveHighlight
