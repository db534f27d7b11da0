import LiveHighlight.Proofs.Session.SlotInvariants

/-!
# Where workers come from

A worker that has a place at a slot, in it or in hand for it, had it before the task that was done last, or was queued by it
(`Turn.lodges`). Of one slot on a calm course more is true (`Turn.engages`): its worker was there before, or the task put it in, or
it takes a step.
-/

namespace LiveHighlight

/-- The worker that a task has in hand for a slot. -/
def Task.lodger? (j : Nat) : Task → Option Worker
  | .install slot w _ | .seat slot w _ | .conclude _ slot _ w _ => if slot = j then some w else none
  | .close _ slot c => if slot = j then c.returning else none
  | _ => none

/-- Whether a worker is in a slot, or in hand for it. -/
def Office.Lodges (o : Office) (agenda : List Task) (j : Nat) (w : Worker) : Prop :=
  (o.scheduler.slot j).worker = some w ∨ ∃ x ∈ agenda, x.lodger? j = some w

/-- Whether a worker is in a slot, or takes a step and has not lost its place. -/
def Office.Engages (o : Office) (agenda : List Task) (k : Nat) (w : Worker) : Prop :=
  (o.scheduler.slot k).worker = some w ∨
    ∃ r outcome, .conclude r k (o.scheduler.slot k).generation w outcome ∈ agenda

namespace OriginAux

variable {s s' : Scheduler Worker} {o o' : Office} {t : Task} {rest new : List Task} {j k : Nat} {w w' : Worker}

/-- An operation on one slot puts no other worker into it than its lemma says, and none into another slot. -/
theorem worker_of_op {slot : Nat} {p : Worker → Prop} (hlen : s'.slots.length = s.slots.length)
    (hne : j ≠ slot → s'.view j = s.view j)
    (hself : s.Knows slot → ∀ w, (s'.view slot).1.worker = some w → (s.slot slot).worker = some w ∨ p w)
    (h : (s'.slot j).worker = some w) : (s.slot j).worker = some w ∨ slot = j ∧ p w := by
  rcases eq_or_ne j slot with rfl | hj
  · have hk : s.Knows j := by
      have hk' := Scheduler.knows_of_worker h
      rwa [Scheduler.Knows, hlen] at hk'
    rcases hself hk w h with hw | hw
    · exact .inl hw
    · exact .inr ⟨rfl, hw⟩
  · have hv := congrArg (fun v => v.1.worker) (hne hj)
    exact .inl (hv.symm.trans h)

/-- The same for an operation that puts no worker in. -/
theorem worker_of_quiet_op {slot : Nat} (hlen : s'.slots.length = s.slots.length) (hne : j ≠ slot → s'.view j = s.view j)
    (hself : s.Knows slot → ∀ w, (s'.view slot).1.worker = some w → (s.slot slot).worker = some w)
    (h : (s'.slot j).worker = some w) : (s.slot j).worker = some w := by
  rcases worker_of_op (p := fun _ => False) hlen hne (fun hk w hw => .inl (hself hk w hw)) h with hw | ⟨-, hw⟩
  · exact hw
  · exact hw.elim

theorem worker_add {label : String} (h : ((s.add label).1.slot j).worker = some w) : (s.slot j).worker = some w := by
  have hv := congrArg (fun v => v.1.worker) (s.view_add (k := j) label)
  simp only [Scheduler.view] at hv
  rw [h] at hv
  split at hv
  · cases hv
  · exact hv.symm

/-- The end of a step puts at most the worker back that took it. -/
theorem worker_conclude {slot g now : Nat} {outcome : Outcome}
    (h : ((s.conclude slot g w outcome now).1.slot j).worker = some w') : (s.slot j).worker = some w' ∨ slot = j ∧ w = w' := by
  refine worker_of_op (p := (w = ·)) (by simp) (fun hj => Scheduler.view_conclude_ne hj g w outcome now)
    ?_ h
  intro hk old ho
  by_cases hg : (s.slot slot).generation = g
  · subst hg
    rcases outcome with fault | ⟨delay⟩ | -
    · rw [Scheduler.view_conclude_error hk] at ho
      exact .inl ho
    · cases hw : (s.slot slot).worker with
      | none =>
        rw [Scheduler.view_conclude_again hk w delay now hw] at ho
        exact .inr (Option.some.inj ho)
      | some other =>
        -- the other worker is taken out, and the slot is barred until it is discarded
        have hk' (at_ : Nat) : (s.appoint slot at_).Knows slot := by simpa [Scheduler.Knows] using hk
        by_cases hr : (s.slot slot).phase = .running
        · simp [Scheduler.view, Scheduler.conclude, hw, hr, hk, hk', Scheduler.evict] at ho
        · simp [Scheduler.view, Scheduler.conclude, hw, hr, hk, Scheduler.evict] at ho
    · rw [Scheduler.view_conclude_finished hk] at ho
      exact .inl ho
  · rw [Scheduler.view_conclude_stale hg] at ho
    exact .inl ho

/-- A task that has a worker in hand for a slot is about the slot. -/
theorem slot_of_lodger {x : Task} (h : x.lodger? j = some w) : x.slot? = some j := by
  cases x with
  | install slot | seat slot | conclude _ slot | close _ slot =>
    simp only [Task.lodger?] at h
    split at h
    · next hj => exact congrArg some hj
    · cases h
  | _ => cases h

theorem lodger_of_light {x : Task} (h : x.Light o) : x.lodger? j = none := by
  cases x with
  | install | seat | conclude | close => cases h
  | _ => rfl

/-- The worker that a turn finds in a slot, or puts there. -/
theorem worker_turn (h : Turn o t o' new) (hw : (o'.scheduler.slot j).worker = some w') :
    (o.scheduler.slot j).worker = some w' ∨ t.lodger? j = some w' := by
  cases h with
  | openPlace | attach => exact .inl (worker_add hw)
  | start =>
    refine .inl (worker_of_quiet_op (by simp) (fun hj => Scheduler.view_start_ne hj _) ?_ hw)
    intro hk w hw
    rw [Scheduler.view_start hk] at hw
    split at hw <;> exact hw
  | pause =>
    refine .inl (worker_of_quiet_op (by simp) (fun hj => Scheduler.view_pause_ne hj) ?_ hw)
    intro hk w hw
    rw [Scheduler.view_pause hk] at hw
    split at hw <;> exact hw
  | stop =>
    refine .inl (worker_of_quiet_op (by simp) (fun hj => Scheduler.view_stop_ne hj) ?_ hw)
    intro hk w hw
    rw [Scheduler.view_stop hk] at hw
    split at hw
    · exact hw
    · cases hw
  | evict =>
    refine .inl (worker_of_quiet_op (by simp) (fun hj => Scheduler.view_evict_ne hj) ?_ hw)
    intro hk w hw
    rw [Scheduler.view_evict hk] at hw
    cases hw
  | pass | work =>
    refine .inl (worker_of_quiet_op (by simp) (fun hj => Scheduler.view_claim_ne hj _) ?_ hw)
    intro hk w hw
    rw [Scheduler.view_claim hk] at hw
    split at hw
    · split at hw
      · exact hw
      · cases hw
    · exact hw
  | @install slot _ at_ w | @seat slot at_ w =>
    rcases worker_of_op (p := (w = ·)) (by simp) (fun hj => Scheduler.view_install_ne hj w at_) (fun hk w' hw' => by
      rw [Scheduler.view_install hk] at hw'
      exact .inr (Option.some.inj hw')) hw with hw | ⟨rfl, rfl⟩
    · exact .inl hw
    · exact .inr (by simp [Task.lodger?])
  | @conclude r slot g now w outcome =>
    rcases worker_conclude hw with hw | ⟨rfl, rfl⟩
    · exact .inl hw
    · exact .inr (by simp [Task.lodger?])
  | @closeReturning r slot c w _ hc =>
    rcases worker_of_op (p := (w = ·)) (by simp) (fun hj => Scheduler.view_restore_ne hj w) (fun hk w' hw' => by
      rw [Scheduler.view_restore hk] at hw'
      exact .inr (Option.some.inj hw')) hw with hw | ⟨rfl, rfl⟩
    · exact .inl hw
    · exact .inr (by simp [Task.lodger?, hc])
  | _ => exact .inl hw

/-- The end of a step gives back at most the worker that took it. -/
theorem returning_conclude {slot g now : Nat} {outcome : Outcome}
    (h : (s.conclude slot g w outcome now).2.returning = some w') : w = w' := by
  unfold Scheduler.conclude at h
  dsimp only at h
  split at h
  · cases h
  · split at h
    · split at h <;> split at h <;> simp at h <;> exact h
    · cases h
    · cases h

/-- The worker that a task has in hand for a slot is the one that it names for it. -/
theorem of_lodger {slot : Nat} (h : (if slot = j then some w else none) = some w') : slot = j ∧ w = w' := by
  obtain ⟨hs, hw⟩ := Option.ite_none_right_eq_some.1 h
  exact ⟨hs, Option.some.inj hw⟩

/-- The workers that the tasks of a turn have in hand for a slot. -/
theorem lodger_turn (h : Turn o t o' new) {x : Task} (hx : x ∈ new) (hl : x.lodger? j = some w') :
    (∃ w, ((o.scheduler.slot j).worker = some w ∨ t.lodger? j = some w) ∧ w'.document? = w.document?) ∨
      w'.document? = none ∨
      (∃ place name delay asker, t = .call (.onPlace place (.queueParse name delay)) asker ∧ o.workers.get? name = some w') ∨
      ∃ i delay, t = .requestParse i ∧ .install j w' delay ∈ new := by
  cases h.left hx with
  | light hx =>
    rw [lodger_of_light hx] at hl
    cases hl
  | employed =>
    obtain ⟨-, rfl⟩ := of_lodger hl
    exact .inr (.inl rfl)
  | engaged _ hw =>
    obtain ⟨-, rfl⟩ := of_lodger hl
    exact .inr (.inr (.inl ⟨_, _, _, _, rfl, hw⟩))
  | requested =>
    obtain ⟨rfl, rfl⟩ := of_lodger hl
    exact .inr (.inr (.inr ⟨_, _, rfl, hx⟩))
  | seated => exact .inl ⟨w', .inr hl, rfl⟩
  | stepped hc hlater =>
    obtain ⟨rfl, rfl⟩ := of_lodger hl
    exact .inl ⟨_, .inl (Scheduler.claim_step hc).2.1, hlater.document⟩
  | closing =>
    simp only [Task.lodger?] at hl
    split at hl
    · rename_i hj
      obtain rfl := returning_conclude hl
      exact .inl ⟨_, .inr (by simp [Task.lodger?, hj]), rfl⟩
    · cases hl
  | _ => cases hl

end OriginAux

open OriginAux

/-- A worker that has a place at a slot had it before a turn, or it parses nothing, or the turn queued it. -/
theorem Turn.lodges {o o' : Office} {t : Task} {rest new : List Task} {j : Nat} {w' : Worker} (h : Turn o t o' new)
    (hl : o'.Lodges (new ++ rest) j w') :
    (∃ w, o.Lodges (t :: rest) j w ∧ w'.document? = w.document?) ∨ w'.document? = none ∨
      (∃ place name delay asker, t = .call (.onPlace place (.queueParse name delay)) asker ∧ o.workers.get? name = some w') ∨
      ∃ i delay, t = .requestParse i ∧ .install j w' delay ∈ new := by
  rcases hl with hw | ⟨x, hx, hl⟩
  · rcases worker_turn h hw with hw | ht
    · exact .inl ⟨w', .inl hw, rfl⟩
    · exact .inl ⟨w', .inr ⟨t, .head _, ht⟩, rfl⟩
  · rcases List.mem_append.1 hx with hx | hx
    · rcases lodger_turn h hx hl with ⟨w, hw | ht, he⟩ | hq
      · exact .inl ⟨w, .inl hw, he⟩
      · exact .inl ⟨w, .inr ⟨t, .head _, ht⟩, he⟩
      · exact .inr hq
    · exact .inl ⟨w', .inr ⟨x, .tail _ hx, hl⟩, rfl⟩

namespace OriginAux

variable {o o' : Office} {t : Task} {rest new : List Task} {k : Nat} {w : Worker}

/-- Outside of rounds, only a stop counts a slot on. -/
theorem generation_turn (h : Turn o t o' new) (hk : o.scheduler.Knows k) (ht : t.isRound = false) (hs : t ≠ .stop k) :
    (o'.scheduler.slot k).generation = (o.scheduler.slot k).generation := by
  have frame {s' : Scheduler Worker} (hv : s'.view k = o.scheduler.view k) :
      (s'.slot k).generation = (o.scheduler.slot k).generation := congrArg (fun v => v.1.generation) hv
  have self {s' : Scheduler Worker} {v : Slot Worker × Nat} (hv : s'.view k = v)
      (hg : v.1.generation = (o.scheduler.slot k).generation) : (s'.slot k).generation = (o.scheduler.slot k).generation := by
    subst hv
    exact hg
  cases h with
  | openPlace | attach =>
    refine self (Scheduler.view_add _) ?_
    rw [if_neg (Nat.ne_of_lt hk)]
    rfl
  | @start _ _ slot =>
    rcases eq_or_ne k slot with rfl | hne
    · refine self (Scheduler.view_start hk _) ?_
      split <;> rfl
    · exact frame (Scheduler.view_start_ne hne _)
  | @pause _ _ slot =>
    rcases eq_or_ne k slot with rfl | hne
    · refine self (Scheduler.view_pause hk) ?_
      split <;> rfl
    · exact frame (Scheduler.view_pause_ne hne)
  | @stop slot =>
    have hne : k ≠ slot := by
      rintro rfl
      exact hs rfl
    exact frame (Scheduler.view_stop_ne hne)
  | @install slot | @seat slot =>
    rcases eq_or_ne k slot with rfl | hne
    · exact self (Scheduler.view_install hk _ _) rfl
    · exact frame (Scheduler.view_install_ne hne _ _)
  | @evict slot =>
    rcases eq_or_ne k slot with rfl | hne
    · exact self (Scheduler.view_evict hk) rfl
    · exact frame (Scheduler.view_evict_ne hne)
  | pass | work | conclude | closeReturning | closeFinished => cases ht
  | _ => rfl

/-- A stopped slot holds no worker. -/
theorem worker_stopped (h : Turn o (.stop k) o' new) (hk : o.scheduler.Knows k) : (o'.scheduler.slot k).worker = none := by
  cases h with
  | quiet ht => cases ht
  | stop =>
    have hv := congrArg (fun v => v.1.worker) (Scheduler.view_stop hk)
    simp only [Scheduler.view] at hv
    rw [hv]
    split
    · rename_i hf
      exact hf.2
    · rfl

/-- A worker that is found in the slot by a turn, or put there, was engaged before, or it is put in now. -/
theorem engages_of_worker (hc : Calmly k o (t :: rest)) (h : Turn o t o' new)
    (hw : (o'.scheduler.slot k).worker = some w) :
    o.Engages (t :: rest) k w ∧ t ≠ .stop k ∨ ∃ delay, t = .install k w delay := by
  have hstop : t ≠ .stop k := by
    rintro rfl
    rw [worker_stopped h (hc.known.tasks _ (.head _) k rfl)] at hw
    cases hw
  rcases worker_turn h hw with hw' | hl
  · exact .inl ⟨.inl hw', hstop⟩
  · have hhead (hs : t.settles k = true) := hc.kept.stage.head hs
    cases t with
    | install slot w' delay =>
      obtain ⟨rfl, rfl⟩ := of_lodger hl
      exact .inr ⟨delay, rfl⟩
    | seat slot w' at_ =>
      obtain ⟨rfl, rfl⟩ := of_lodger hl
      rcases hhead (by simp [Task.settles]) with ⟨w'', delay, he, -⟩ | ⟨r, c, he, -⟩ <;> cases he
    | conclude r slot g w' outcome =>
      obtain ⟨rfl, rfl⟩ := of_lodger hl
      by_cases hg : (o.scheduler.slot slot).generation = g
      · subst hg
        exact .inl ⟨.inr ⟨r, outcome, .head _⟩, hstop⟩
      · cases h with
        | quiet ht => cases ht
        | @conclude _ _ _ now =>
          have hv := congrArg (fun v => v.1.worker) (Scheduler.view_conclude_stale hg w' outcome now)
          exact .inl ⟨.inl (hv.symm.trans hw), hstop⟩
    | close r slot c =>
      simp only [Task.lodger?] at hl
      split at hl
      · rename_i hj
        rcases hhead (by simp [Task.settles, hj]) with ⟨w'', delay, he, -⟩ | ⟨r', c', he, hr⟩
        · cases he
        · cases he
          rw [hr] at hl
          cases hl
      · cases hl
    | _ => cases hl

end OriginAux

/-- A worker that is engaged at a slot on a calm course was so before a turn, or it is put in, or it takes a step. -/
theorem Turn.engages {o o' : Office} {t : Task} {rest new : List Task} {k : Nat} {w : Worker} (hc : Calmly k o (t :: rest))
    (h : Turn o t o' new) (he : o'.Engages (new ++ rest) k w) :
    (o.Engages (t :: rest) k w ∧ t ≠ .stop k) ∨ (∃ delay, t = .install k w delay) ∨
      ∃ r g outcome, .conclude r k g w outcome ∈ new := by
  rcases he with hw | ⟨r, outcome, hx⟩
  · rcases engages_of_worker hc h hw with he | hi
    · exact .inl he
    · exact .inr (.inl hi)
  · rcases List.mem_append.1 hx with hx | hx
    · exact .inr (.inr ⟨r, _, outcome, hx⟩)
    · -- the step is under way, so the task that is done belongs to no round
      have hk : o.scheduler.Knows k := hc.known.tasks _ (.tail _ hx) k rfl
      have ht : t.isRound = false := by
        refine hc.orderly.rounds t ?_
        rw [List.dropLast_cons_of_ne_nil (List.ne_nil_of_mem hx)]
        exact .head _
      have hl := hc.kept.lent r _ w outcome (.tail _ hx)
      have hstop : t ≠ .stop k := by
        rintro rfl
        cases h with
        | quiet ht => cases ht
        | stop =>
          have hv := congrArg Prod.fst (Scheduler.view_stop hk)
          simp only [Scheduler.view] at hv hl
          rw [hv] at hl
          split at hl
          · rename_i hf
            exact (hl.2.2 rfl).1 hf.1
          · exact absurd hl.2.1 (by simp)
      rw [generation_turn h hk ht hstop] at hx
      exact .inl ⟨.inr ⟨r, outcome, .tail _ hx⟩, hstop⟩

end LiveHighlight
