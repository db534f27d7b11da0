import LiveHighlight.Proofs.Session.Known
import LiveHighlight.Proofs.Session.RoundProgress

/-!
# Barred slots

A worker that is put into a slot over another one waits until that one is discarded, and meanwhile the slot is barred. Whatever
is done meanwhile leaves the slot alone: a call that touches it crashes the machine, and no round that begins meanwhile can come
to it (`Fenced`). So at most one such change of a slot is under way (`Course.fenced`), and a slot is in somebody's hands exactly
while it is barred (`Course.barred`).
-/

namespace LiveHighlight

/-- Whether a task ends a change during which a slot is barred. -/
def Task.bars (k : Nat) : Task → Prop
  | .seat slot _ _ => slot = k
  | .close _ slot c => slot = k ∧ c.returning ≠ none
  | _ => False

/-- Whether a task ends no change of a slot and no step there, and belongs to no round that will come to it. -/
structure Task.Avoids (k : Nat) (x : Task) : Prop where
  bars : ¬ x.bars k
  concludes : ∀ r g w outcome, x ≠ .conclude r k g w outcome
  due : ∀ r, x.round? = some r → k ∉ r.due

/-- While a change of a slot is under way the slot is barred and empty, and whatever is done before the change ends leaves it
alone. -/
structure Fenced (k : Nat) (s : Scheduler Worker) (agenda : List Task) : Prop where
  barred : (∃ x ∈ agenda, x.bars k) → (s.slot k).barred = true ∧ (s.slot k).worker = none
  avoided : agenda.Pairwise fun x y => y.bars k → x.Avoids k

namespace BarringAux

variable {s : Session} {s' : Scheduler Worker} {o o' : Office} {t x : Task} {rest new : List Task} {k : Nat}

theorem avoids_of_plain (hr : x.isRound = false) (hs : ∀ w at_, x ≠ .seat k w at_) : x.Avoids k := by
  cases x with
  | conclude | close | round => cases hr
  | seat slot w at_ =>
    refine ⟨?_, by simp, by simp [Task.round?]⟩
    rintro rfl
    exact hs w at_ rfl
  | _ => exact ⟨id, by simp, by simp [Task.round?]⟩

/-- Only the task that puts a worker in leaves one that ends such a change, besides the end of a step. -/
theorem install_of_seat (h : Turn o t o' new) {slot at_ : Nat} {w : Worker} (hx : .seat slot w at_ ∈ new) :
    ∃ delay, t = .install slot w delay := by
  cases h.left hx with
  | light hx => cases hx
  | seated => exact ⟨_, rfl⟩

theorem conclude_of_close (h : Turn o t o' new) {r : Round} {slot : Nat} {c : Conclusion Worker} (hx : .close r slot c ∈ new) :
    ∃ g w outcome, t = .conclude r slot g w outcome := by
  cases h.left hx with
  | light hx => cases hx
  | closing => exact ⟨_, _, _, rfl⟩

/-- What a task leaves that leaves a barred slot alone leaves it alone as well. -/
theorem avoids_new {o' : Office} (hb : (s.scheduler.slot k).barred = true) (ha : t.Avoids k) (turn : Turn s.office t o' new)
    (beat : ∀ x ∈ new, x.isRound = true → Beat s t x) (hx : x ∈ new) : x.Avoids k := by
  cases hr : x.isRound with
  | false =>
    refine avoids_of_plain hr ?_
    rintro w at_ rfl
    obtain ⟨delay, rfl⟩ := install_of_seat turn hx
    have hfree : (s.scheduler.slot k).barred = false := by
      cases turn with
      | quiet hq => cases hq
      | install hb' _ => exact hb'
      | evict hb' _ => exact hb'
    rw [hb] at hfree
    cases hfree
  | true =>
    cases beat x hx hr with
    | driven | again => exact ⟨id, by simp, by simp [Task.round?]⟩
    | begun _ hnone =>
      refine ⟨id, by simp, ?_⟩
      rintro r hr hk
      obtain rfl := Option.some.inj hr
      simp only [Scheduler.due, List.mem_mergeSort, List.mem_filter] at hk
      have hsome : s.scheduler.anyBarred = true := List.any_eq_true.2 ⟨k, hk.1, hb⟩
      rw [hnone] at hsome
      cases hsome
    | @passed r slot due hdue =>
      refine ⟨id, by simp, ?_⟩
      rintro r' hr' hk
      obtain rfl := Option.some.inj hr'
      exact ha.due r rfl (by rw [hdue]; exact .tail _ hk)
    | @stepped r slot g due _ _ _ hdue =>
      have hnot := ha.due r rfl
      rw [hdue] at hnot
      refine ⟨id, ?_, ?_⟩
      · rintro r' g' w' outcome' he
        cases he
        exact hnot (.head _)
      · rintro r' hr' hk
        obtain rfl := Option.some.inj hr'
        exact hnot (.tail _ hk)
    | @concluded r slot g w outcome =>
      refine ⟨?_, by simp, ?_⟩
      · rintro ⟨rfl, -⟩
        exact ha.concludes r g w outcome rfl
      · rintro r' hr'
        exact ha.due r' hr'
    | closed =>
      refine ⟨id, by simp, ?_⟩
      rintro r' hr' hk
      obtain rfl := Option.some.inj hr'
      exact ha.due _ rfl hk

/-- What leaves a barred slot alone leaves it as it is. -/
theorem slot_shift (hk : s.scheduler.Knows k) (hb : (s.scheduler.slot k).barred = true) (ha : t.Avoids k) (h : Shift s t s') :
    s'.slot k = s.scheduler.slot k := by
  have hat := h.shiftAt hk
  generalize hv : s'.view k = v at hat
  generalize s'.nextSeq = next at hat
  refine (congrArg Prod.fst hv).trans ?_
  cases hat with
  | same | delist => rfl
  | start _ _ hfree | pause _ hfree | stop hfree | install hfree | evict hfree => cases hb.symm.trans hfree
  | seat => exact absurd rfl ha.bars
  | vacate hr | lend hr => exact absurd (hr ▸ .head _) (ha.due _ rfl)
  | again | takeOver | finish | fail => exact absurd rfl (ha.concludes _ _ _ _)
  | restore hc => exact absurd ⟨rfl, by simp [hc]⟩ ha.bars

/-- A step that ends over another worker leaves its slot empty and barred. -/
theorem barred_conclude {sch : Scheduler Worker} {g now : Nat} {w : Worker} {outcome : Outcome} (hk : sch.Knows k)
    (hc : (sch.conclude k g w outcome now).2.returning ≠ none) :
    ((sch.conclude k g w outcome now).1.slot k).barred = true ∧ ((sch.conclude k g w outcome now).1.slot k).worker = none := by
  by_cases hg : (sch.slot k).generation = g
  · subst hg
    rcases outcome with fault | ⟨delay⟩ | -
    · simp [Scheduler.conclude] at hc
    · cases hw : (sch.slot k).worker with
      | none => simp [Scheduler.conclude, hw] at hc
      | some other =>
        have hv := congrArg Prod.fst (Scheduler.view_conclude_over hk w delay now hw)
        simp only [Scheduler.view] at hv
        rw [hv]
        exact ⟨rfl, rfl⟩
    · simp [Scheduler.conclude] at hc
  · simp [Scheduler.conclude, hg] at hc

/-- A task that begins a change during which a slot is barred leaves it barred and empty. -/
theorem barred_new (hk : o.Known (t :: rest)) (h : Turn o t o' new) (hx : x ∈ new) (hb : x.bars k) :
    (o'.scheduler.slot k).barred = true ∧ (o'.scheduler.slot k).worker = none := by
  cases x with
  | seat slot w at_ =>
    obtain rfl := hb
    obtain ⟨delay, rfl⟩ := install_of_seat h hx
    cases h with
    | quiet hq => cases hq
    | install => cases hx
    | evict =>
      have hv := congrArg Prod.fst (Scheduler.view_evict (hk.tasks _ (.head _) slot rfl))
      simp only [Scheduler.view] at hv
      simp [hv]
  | close r slot c =>
    obtain ⟨rfl, hc⟩ := hb
    obtain ⟨g, w, outcome, rfl⟩ := conclude_of_close h hx
    cases h with
    | quiet hq => cases hq
    | conclude =>
      rcases List.mem_append.1 hx with hx | hx
      · obtain ⟨_, -, he⟩ := List.mem_map.1 hx
        cases he
      · obtain he := List.mem_singleton.1 hx
        cases he
        exact barred_conclude (hk.tasks _ (.head _) slot rfl) hc
  | _ => cases hb

/-- A slot is barred after a turn because it was before, and the turn does not end that, or because the turn begins it. -/
theorem bars_turn (hk : o.Known (t :: rest)) (h : Turn o t o' new) (hb : (o'.scheduler.slot k).barred = true) :
    (∃ x ∈ new, x.bars k) ∨ (o.scheduler.slot k).barred = true ∧ ¬ t.bars k := by
  have known {slot : Nat} (hs : t.slot? = some slot) : o.scheduler.Knows slot := hk.tasks t (.head _) slot hs
  have kept {v : Slot Worker × Nat} (hv : o'.scheduler.view k = v) (hbar : v.1.barred = true → (o.scheduler.slot k).barred = true)
      (ht : ¬ t.bars k) : (∃ x ∈ new, x.bars k) ∨ (o.scheduler.slot k).barred = true ∧ ¬ t.bars k :=
    .inr ⟨hbar ((congrArg (fun v => v.1.barred) hv).symm.trans hb), ht⟩
  have opened {v : Slot Worker × Nat} (hv : o'.scheduler.view k = v) (hbar : v.1.barred = false) :
      (∃ x ∈ new, x.bars k) ∨ (o.scheduler.slot k).barred = true ∧ ¬ t.bars k :=
    absurd ((congrArg (fun v => v.1.barred) hv).symm.trans hb) (by simp [hbar])
  cases h with
  | quiet ht =>
    refine .inr ⟨hb, fun hbars => ?_⟩
    cases t with
    | seat | close => cases ht
    | _ => exact hbars
  | openPlace | attach =>
    refine kept (Scheduler.view_add _) ?_ id
    split
    · simp [Slot.fresh]
    · exact id
  | @start _ _ slot _ hs =>
    rcases eq_or_ne k slot with rfl | hne
    · refine kept (Scheduler.view_start (hk.refers _ hs) _) ?_ id
      split <;> exact id
    · exact kept (Scheduler.view_start_ne hne _) id id
  | @pause _ _ slot hs =>
    rcases eq_or_ne k slot with rfl | hne
    · refine kept (Scheduler.view_pause (hk.refers _ hs)) ?_ id
      split <;> exact id
    · exact kept (Scheduler.view_pause_ne hne) id id
  | @stop slot =>
    rcases eq_or_ne k slot with rfl | hne
    · refine kept (Scheduler.view_stop (known rfl)) ?_ id
      split <;> exact id
    · exact kept (Scheduler.view_stop_ne hne) id id
  | @install slot =>
    rcases eq_or_ne k slot with rfl | hne
    · exact opened (Scheduler.view_install (known rfl) _ _) rfl
    · exact kept (Scheduler.view_install_ne hne _ _) id id
  | @seat slot =>
    rcases eq_or_ne k slot with rfl | hne
    · exact opened (Scheduler.view_install (known rfl) _ _) rfl
    · exact kept (Scheduler.view_install_ne hne _ _) id hne.symm
  | @evict slot =>
    rcases eq_or_ne k slot with rfl | hne
    · exact .inl ⟨_, .tail _ (.head _), rfl⟩
    · exact kept (Scheduler.view_evict_ne hne) id id
  | @pass _ _ slot | @work _ _ slot =>
    by_cases hs : o.scheduler.Knows slot
    · rcases eq_or_ne k slot with rfl | hne
      · refine kept (Scheduler.view_claim hs _) ?_ id
        split
        · split <;> exact id
        · exact id
      · exact kept (Scheduler.view_claim_ne hne _) id id
    · exact kept (by rw [Scheduler.claim_of_not_knows hs]) id id
  | @conclude r slot g now w outcome =>
    rcases eq_or_ne k slot with rfl | hne
    · by_cases hg : (o.scheduler.slot k).generation = g
      · subst hg
        rcases outcome with fault | ⟨delay⟩ | -
        · exact kept (Scheduler.view_conclude_error (known rfl) w fault now) id id
        · cases hw : (o.scheduler.slot k).worker with
          | none => exact opened (Scheduler.view_conclude_again (known rfl) w delay now hw) rfl
          | some other =>
            refine .inl ⟨_, List.mem_append_right _ (.head _), rfl, ?_⟩
            simp [Scheduler.conclude, hw]
        · exact kept (Scheduler.view_conclude_finished (known rfl) w now) id id
      · exact kept (Scheduler.view_conclude_stale hg w outcome now) id id
    · exact kept (Scheduler.view_conclude_ne hne g w outcome now) id id
  | @closeReturning _ slot _ w =>
    rcases eq_or_ne k slot with rfl | hne
    · exact opened (Scheduler.view_restore (known rfl) w) rfl
    · exact kept (Scheduler.view_restore_ne hne w) id fun hbars => hne hbars.1.symm
  | closeFinished hc | closeOpen hc => exact .inr ⟨hb, fun hbars => hbars.2 hc⟩
  | _ => exact .inr ⟨hb, id⟩

/-- Of what a task leaves, only the last one can end a change of a slot, and what comes before it leaves the slot alone. -/
theorem avoided_new (h : Turn o t o' new) : new.Pairwise fun x y => y.bars k → x.Avoids k := by
  have discard (w : Worker) : (Task.discard w).Avoids k := avoids_of_plain rfl (by simp)
  have nothing (hn : ∀ y ∈ new, ¬ y.bars k) : new.Pairwise fun x y => y.bars k → x.Avoids k :=
    List.pairwise_of_forall_mem_list fun x _ y hy hb => absurd hb (hn y hy)
  by_cases hn : ∃ y ∈ new, y.bars k
  · obtain ⟨y, hy, hb⟩ := hn
    cases y with
    | seat slot w at_ =>
      obtain ⟨delay, rfl⟩ := install_of_seat h hy
      cases h with
      | quiet hq => cases hq
      | install => exact .nil
      | evict => simp [discard]
    | close r slot c =>
      obtain ⟨g, w, outcome, rfl⟩ := conclude_of_close h hy
      cases h with
      | quiet hq => cases hq
      | conclude =>
        rename_i now
        cases (o.scheduler.conclude slot g w outcome now).2.discarded <;> simp [discard]
    | _ => cases hb
  · exact nothing fun y hy hb => hn ⟨y, hy, hb⟩

end BarringAux

open BarringAux

/-- A task keeps what is true of a slot while it is barred. -/
theorem Fenced.step {k : Nat} {s s' : Session} {t : Task} {rest new : List Task} (hk : s.office.Known (t :: rest))
    (hf : Fenced k s.scheduler (t :: rest)) (turn : Turn s.office t s'.office new) (shift : Shift s t s'.scheduler)
    (beat : ∀ x ∈ new, x.isRound = true → Beat s t x) : Fenced k s'.scheduler (new ++ rest) := by
  obtain ⟨hhead, hrest⟩ := List.pairwise_cons.1 hf.avoided
  refine ⟨?_, ?_⟩
  · rintro ⟨y, hy, hb⟩
    rcases List.mem_append.1 hy with hy | hy
    · exact barred_new hk turn hy hb
    · have hbarred := hf.barred ⟨y, .tail _ hy, hb⟩
      have hknown : s.scheduler.Knows k := by
        by_contra hn
        rw [Scheduler.slot_of_not_knows hn] at hbarred
        cases hbarred.1
      rw [slot_shift hknown hbarred.1 (hhead y hy hb) shift]
      exact hbarred
  · refine List.pairwise_append.2 ⟨avoided_new turn, hrest, ?_⟩
    intro x hx y hy hb
    exact avoids_new (hf.barred ⟨y, .tail _ hy, hb⟩).1 (hhead y hy hb) turn beat hx

theorem fenced_nil (k : Nat) (s : Scheduler Worker) : Fenced k s [] := ⟨by simp, .nil⟩

theorem fenced_call (k : Nat) (s : Scheduler Worker) (c : Call) : Fenced k s [.call c .host] :=
  ⟨by simp [Task.bars], by simp⟩

/-- Along every course, whatever is done while a slot is barred leaves the slot alone. -/
theorem Machine.Course.fenced {past : List Machine} {m : Machine} (run : Course past m) (k : Nat) :
    m.Crashed ∨ Fenced k m.session.scheduler m.agenda := by
  induction run with
  | new options => exact .inr (fenced_nil k _)
  | ask c _ _ _ => exact .inr (fenced_call k _ c)
  | step run ha ih =>
    have hf := ih.resolve_left (not_crashed_of_agenda ha)
    have hk := run.known.resolve_left (not_crashed_of_agenda ha)
    rw [ha] at hf hk
    rcases run.advance ha with hc | ⟨new, hn, turn, shift, beat⟩
    · exact .inl hc
    · rw [hn]
      exact .inr (hf.step hk turn shift beat)

/-- Along every course, a barred slot is one where a change is under way. -/
theorem Machine.Course.barred {past : List Machine} {m : Machine} (run : Course past m) :
    m.Crashed ∨ ∀ k, (m.session.scheduler.slot k).barred = true → ∃ x ∈ m.agenda, x.bars k := by
  have hi := run.invariant (P := fun _ _ => True)
    (I := fun o agenda => o.Known agenda ∧ ∀ k, (o.scheduler.slot k).barred = true → ∃ x ∈ agenda, x.bars k)
    (fun _ _ => trivial) (fun options => ⟨Office.known_new options, fun k hb => by cases hb⟩)
    (fun c hi => ⟨⟨hi.1.refers, by simp [Task.slot?], hi.1.pending⟩, fun k hb => ?_⟩)
    (fun _ hi h => ⟨h.known hi.1, fun k hb => ?_⟩)
  · exact hi.imp_right And.right
  · obtain ⟨x, hx, -⟩ := hi.2 k hb
    cases hx
  · rcases BarringAux.bars_turn hi.1 h hb with ⟨x, hx, hbars⟩ | ⟨hb, ht⟩
    · exact ⟨x, List.mem_append_left _ hx, hbars⟩
    · obtain ⟨x, hx, hbars⟩ := hi.2 k hb
      rcases List.mem_cons.1 hx with rfl | hx
      · exact absurd hbars ht
      · exact ⟨x, List.mem_append_right _ hx, hbars⟩

end LiveHighlight
