import LiveHighlight.Proofs.Session.Course

/-!
# Only slots that there are

Whatever a session refers to a slot by is the number of a slot that there is: the places that have a name, the handlers, the
tasks on the agenda and the list of pending slots (`Office.Known`). This holds along every course (`Course.known`), so an
operation that a task performs on a slot does to it what its lemma says.
-/

namespace LiveHighlight

/-- The slot that a task is about. -/
def Task.slot? : Task → Option Nat
  | .stop slot | .install slot _ _ | .seat slot _ _ | .conclude _ slot _ _ _ | .close _ slot _ => some slot
  | _ => none

/-- Whatever refers to a slot refers to one that there is. -/
structure Office.Known (o : Office) (agenda : List Task) : Prop where
  refers : ∀ slot, o.Refers slot → o.scheduler.Knows slot
  tasks : ∀ x ∈ agenda, ∀ slot, x.slot? = some slot → o.scheduler.Knows slot
  pending : ∀ slot, ¬ o.scheduler.Knows slot → o.scheduler.pending.count slot = 0

/-- Slots are never taken away. -/
theorem Turn.length_le {o o' : Office} {t : Task} {new : List Task} (h : Turn o t o' new) :
    o.scheduler.slots.length ≤ o'.scheduler.slots.length := by
  cases h <;> simp

theorem Turn.knows {o o' : Office} {t : Task} {new : List Task} (h : Turn o t o' new) {slot : Nat}
    (hk : o.scheduler.Knows slot) : o'.scheduler.Knows slot :=
  Nat.lt_of_lt_of_le hk h.length_le

/-- A slot that there is not is passed over. -/
theorem Scheduler.claim_of_not_knows {ω : Type} {s : Scheduler ω} {slot now : Nat} (h : ¬ s.Knows slot) :
    s.claim slot now = (s, .skip) := by
  simp [claim, slot_of_not_knows h, Slot.isDue, Slot.fresh]

namespace KnownAux

variable {o o' : Office} {t : Task} {new : List Task}

theorem knows_of_light (hr : ∀ slot, o.Refers slot → o.scheduler.Knows slot) {x : Task} (hx : x.Light o) {slot : Nat}
    (hs : x.slot? = some slot) : o.scheduler.Knows slot := by
  cases x with
  | stop slot' =>
    obtain rfl : slot' = slot := Option.some.inj hs
    exact hr slot' hx
  | install | seat | conclude | close => cases hx
  | _ => cases hs

/-- The slots that a turn makes known to a name or a handler, and no others, are new. -/
theorem refers_turn (h : Turn o t o' new) {slot : Nat} (hr : o'.Refers slot) :
    o.Refers slot ∨ slot = o.scheduler.slots.length ∧ o'.scheduler.Knows slot := by
  cases h with
  | openPlace =>
    rcases hr with ⟨name, hn⟩ | hd
    · simp only [Directory.get?_insert] at hn
      split at hn
      · refine .inr ⟨(Option.some.inj hn).symm, ?_⟩
        simp [Scheduler.Knows, ← Option.some.inj hn]
      · exact .inl (.inl ⟨name, hn⟩)
    · exact .inl (.inr hd)
  | dropPlace =>
    rcases hr with ⟨name, hn⟩ | hd
    · simp only [Directory.get?_erase] at hn
      split at hn
      · cases hn
      · exact .inl (.inl ⟨name, hn⟩)
    · exact .inl (.inr hd)
  | attach =>
    rcases hr with hn | hd
    · exact .inl (.inl hn)
    · rcases List.mem_append.1 hd with hd | hd
      · exact .inl (.inr hd)
      · refine .inr ⟨List.mem_singleton.1 hd, ?_⟩
        simp [Scheduler.Knows, List.mem_singleton.1 hd]
  | _ => exact .inl hr

/-- The slots of the tasks that a turn leaves are there: somebody refers to them, or the turn itself had them in hand. -/
theorem tasks_turn (hr : ∀ slot, o.Refers slot → o.scheduler.Knows slot)
    (ht : ∀ slot, t.slot? = some slot → o.scheduler.Knows slot) (h : Turn o t o' new) {x : Task} (hx : x ∈ new) {slot : Nat}
    (hs : x.slot? = some slot) : o.scheduler.Knows slot := by
  cases h.left hx with
  | light hx => exact knows_of_light hr hx hs
  | employed hp | engaged hp =>
    obtain rfl := Option.some.inj hs
    exact hr _ (.inl ⟨_, hp⟩)
  | requested hd =>
    obtain rfl := Option.some.inj hs
    exact hr _ (.inr (List.mem_of_getElem? hd))
  | seated | closing => exact ht slot hs
  | stepped hc =>
    by_contra hk
    obtain rfl := Option.some.inj hs
    rw [Scheduler.claim_of_not_knows hk] at hc
    cases hc
  | _ => cases hs

/-- A slot that there is not even after a turn is nothing to the turn. -/
theorem view_turn (hr : ∀ slot, o.Refers slot → o.scheduler.Knows slot)
    (ht : ∀ slot, t.slot? = some slot → o.scheduler.Knows slot) (h : Turn o t o' new) {k : Nat}
    (hk : ¬ o'.scheduler.Knows k) : o'.scheduler.view k = o.scheduler.view k := by
  have hne {slot : Nat} (hs : o.scheduler.Knows slot) : k ≠ slot := fun he => hk (h.knows (he ▸ hs))
  cases h with
  | openPlace | attach =>
    rw [Scheduler.view_add, if_neg]
    rintro rfl
    simp [Scheduler.Knows] at hk
  | start hs => exact Scheduler.view_start_ne (hne (hr _ hs)) _
  | pause hs => exact Scheduler.view_pause_ne (hne (hr _ hs))
  | stop => exact Scheduler.view_stop_ne (hne (ht _ rfl))
  | evict => exact Scheduler.view_evict_ne (hne (ht _ rfl))
  | install | seat => exact Scheduler.view_install_ne (hne (ht _ rfl)) _ _
  | @pass r _ slot | @work r _ slot =>
    by_cases hs : o.scheduler.Knows slot
    · exact Scheduler.view_claim_ne (hne hs) _
    · rw [Scheduler.claim_of_not_knows hs]
  | conclude => exact Scheduler.view_conclude_ne (hne (ht _ rfl)) _ _ _ _
  | closeReturning => exact Scheduler.view_restore_ne (hne (ht _ rfl)) _
  | closeFinished => exact Scheduler.view_delist_ne (hne (ht _ rfl))
  | _ => rfl

end KnownAux

open KnownAux

theorem Office.known_new (options : SchedulerOptions) : (Session.new options).office.Known [] where
  refers slot hr := by
    rcases hr with ⟨name, hn⟩ | hd
    · cases hn
    · cases hd
  tasks x hx := by cases hx
  pending slot _ := rfl

/-- A turn keeps to slots that there are. -/
theorem Turn.known {o o' : Office} {t : Task} {rest new : List Task} (hk : o.Known (t :: rest)) (h : Turn o t o' new) :
    o'.Known (new ++ rest) where
  refers slot hr := by
    rcases refers_turn h hr with hr | ⟨-, hs⟩
    · exact h.knows (hk.refers slot hr)
    · exact hs
  tasks x hx slot hs := by
    rcases List.mem_append.1 hx with hx | hx
    · exact h.knows (tasks_turn hk.refers (hk.tasks t (.head _)) h hx hs)
    · exact h.knows (hk.tasks x (.tail _ hx) slot hs)
  pending slot hs := by
    have hv := congrArg Prod.snd (view_turn hk.refers (hk.tasks t (.head _)) h hs)
    exact hv.trans (hk.pending slot fun hs' => hs (h.knows hs'))

/-- Along every course, whatever refers to a slot refers to one that there is. -/
theorem Machine.Course.known {past : List Machine} {m : Machine} (run : Course past m) :
    m.Crashed ∨ m.session.office.Known m.agenda :=
  run.invariant (P := fun _ _ => True) (fun _ _ => trivial) Office.known_new
    (fun c hi => ⟨hi.refers, by simp [Task.slot?], hi.pending⟩) fun _ hi h => h.known hi

end LiveHighlight
