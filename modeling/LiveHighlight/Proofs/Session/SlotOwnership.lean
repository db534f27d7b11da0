import LiveHighlight.Proofs.Session.Barring

/-!
# The worker that a slot belongs to

A worker that is put into a slot stays the slot's worker until it is done or fails, or until the slot is stopped or given to
another one. `Task.tenant?` says which worker a task has in hand for a slot, `Tenant` that a slot belongs to one worker and to no
other one, wherever that worker is, and `Ousts` which tasks end a tenure: every other task keeps it (`tenant_turn`).
-/

namespace LiveHighlight

/-- The worker to which a slot belongs and that a task has in hand: it takes a step there and has not lost its place, or goes in
once another one is discarded. -/
def Task.tenant? (k generation : Nat) : Task → Option Worker
  | .conclude _ slot g w _ => if slot = k ∧ g = generation then some w else none
  | .seat slot w _ => if slot = k then some w else none
  | .close _ slot c => if slot = k then c.returning else none
  | _ => none

/-- Whether a slot belongs to a worker: the slot holds it, or it is in hand for the slot. -/
def Office.Houses (o : Office) (agenda : List Task) (k : Nat) (w : Worker) : Prop :=
  (o.scheduler.slot k).worker = some w ∨ ∃ x ∈ agenda, x.tenant? k (o.scheduler.slot k).generation = some w

/-- Whether the first task ends the tenure of the worker with a number: it stops the slot, puts in another worker, or sees to a
step with which the worker is done or failed. -/
def Ousts (k i : Nat) : List Task → Prop
  | .stop slot :: _ | .install slot _ _ :: _ => slot = k
  | .conclude _ _ _ _ (.ok (.again _)) :: _ => False
  | .conclude _ slot _ w _ :: _ => slot = k ∧ w.id = i
  | _ => False

instance (k i : Nat) (agenda : List Task) : Decidable (Ousts k i agenda) := by
  unfold Ousts
  split <;> infer_instance

/-- A slot belongs to the worker with a number and to no other one. -/
structure Tenant (k i : Nat) (o : Office) (agenda : List Task) : Prop where
  housed : ∃ w, o.Houses agenda k w
  alone : ∀ w, o.Houses agenda k w → w.id = i

namespace OwnershipAux

variable {s : Session} {o o' : Office} {t x : Task} {rest new : List Task} {k i : Nat}

theorem tenant_of_quiet {g : Nat} (hq : x.isQuiet = true) : x.tenant? k g = none := by
  cases x with
  | conclude | seat | close => cases hq
  | _ => rfl

theorem tenant_of_light {g : Nat} (hx : x.Light o) : x.tenant? k g = none := by
  cases x with
  | conclude | seat | close => cases hx
  | _ => rfl

/-- What takes nothing away from a slot and its generation, and neither is nor leaves a task that has a worker in hand to whom the
slot belongs, changes no tenancy. -/
theorem tenant_frame (ht : Tenant k i o (t :: rest)) (hw : (o'.scheduler.slot k).worker = (o.scheduler.slot k).worker)
    (hg : (o'.scheduler.slot k).generation = (o.scheduler.slot k).generation)
    (hx : t.tenant? k (o.scheduler.slot k).generation = none)
    (hn : ∀ x ∈ new, x.tenant? k (o.scheduler.slot k).generation = none) : Tenant k i o' (new ++ rest) := by
  obtain ⟨⟨w, hh⟩, hall⟩ := ht
  refine ⟨⟨w, ?_⟩, ?_⟩
  · rcases hh with hh | ⟨x, hm, hh⟩
    · exact .inl (hw.trans hh)
    · rcases List.mem_cons.1 hm with rfl | hm
      · rw [hx] at hh
        cases hh
      · exact .inr ⟨x, List.mem_append_right _ hm, by rw [hg]; exact hh⟩
  · intro w' hh'
    rcases hh' with hh' | ⟨x, hm, hh'⟩
    · exact hall w' (.inl (hw.symm.trans hh'))
    · rw [hg] at hh'
      rcases List.mem_append.1 hm with hm | hm
      · rw [hn x hm] at hh'
        cases hh'
      · exact hall w' (.inr ⟨x, .tail _ hm, hh'⟩)

/-- What leaves a slot as it is changes no tenancy there. -/
theorem tenant_away (ht : Tenant k i o (t :: rest)) (hv : o'.scheduler.view k = o.scheduler.view k)
    (hx : t.tenant? k (o.scheduler.slot k).generation = none)
    (hn : ∀ x ∈ new, x.tenant? k (o.scheduler.slot k).generation = none) : Tenant k i o' (new ++ rest) := by
  have hs : o'.scheduler.slot k = o.scheduler.slot k := congrArg Prod.fst hv
  exact tenant_frame ht (by rw [hs]) (by rw [hs]) hx hn

/-- What hands a slot's worker on changes no tenancy either. -/
theorem tenant_move {w w' : Worker} (ht : Tenant k i o (t :: rest)) (hw : o.Houses (t :: rest) k w) (hid : w'.id = w.id)
    (hg : (o'.scheduler.slot k).generation = (o.scheduler.slot k).generation) (hw' : o'.Houses (new ++ rest) k w')
    (hall : ∀ v, ((o'.scheduler.slot k).worker = some v ∨
      ∃ x ∈ new, x.tenant? k (o.scheduler.slot k).generation = some v) → v = w') : Tenant k i o' (new ++ rest) := by
  have hi : w'.id = i := hid.trans (ht.alone w hw)
  refine ⟨⟨w', hw'⟩, ?_⟩
  intro v hv
  rcases hv with hv | ⟨x, hm, hv⟩
  · rw [hall v (.inl hv), hi]
  · rw [hg] at hv
    rcases List.mem_append.1 hm with hm | hm
    · rw [hall v (.inr ⟨x, hm, hv⟩), hi]
    · exact ht.alone v (.inr ⟨x, .tail _ hm, hv⟩)

/-- A worker that goes into its slot stays the tenant. -/
theorem tenant_seated {w w' : Worker} {v : Slot Worker × Nat} (ht : Tenant k i o (t :: rest)) (hw : o.Houses (t :: rest) k w)
    (hid : w'.id = w.id) (hv : o'.scheduler.view k = v) (hg : v.1.generation = (o.scheduler.slot k).generation)
    (hs : v.1.worker = some w') (hn : ∀ x ∈ new, x.tenant? k (o.scheduler.slot k).generation = none) :
    Tenant k i o' (new ++ rest) := by
  subst hv
  refine tenant_move ht hw hid hg (.inl hs) ?_
  rintro v (hv | ⟨x, hx, hv⟩)
  · exact Option.some.inj (hv.symm.trans hs)
  · rw [hn x hx] at hv
    cases hv

/-- A worker that leaves its slot empty and is in hand for it stays the tenant. -/
theorem tenant_handed {w w' : Worker} {v : Slot Worker × Nat} (ht : Tenant k i o (t :: rest)) (hw : o.Houses (t :: rest) k w)
    (hid : w'.id = w.id) (hv : o'.scheduler.view k = v) (hg : v.1.generation = (o.scheduler.slot k).generation)
    (hs : v.1.worker = none) (hx : x ∈ new) (hxw : x.tenant? k (o.scheduler.slot k).generation = some w')
    (hn : ∀ y ∈ new, ∀ v, y.tenant? k (o.scheduler.slot k).generation = some v → v = w') : Tenant k i o' (new ++ rest) := by
  subst hv
  have hgen : (o'.scheduler.slot k).generation = (o.scheduler.slot k).generation := hg
  refine tenant_move ht hw hid hgen (.inr ⟨x, List.mem_append_left _ hx, by rw [hgen]; exact hxw⟩) ?_
  rintro v (hv | ⟨y, hy, hv⟩)
  · cases hs.symm.trans hv
  · exact hn y hy v hv

/-- A step begins: its worker is in hand until the step ends. -/
theorem tenant_work {r : Round} {slot g : Nat} {w w' : Worker} {outcome : Outcome} (ht : Tenant k i o (.round r :: rest))
    (hknown : o.scheduler.Knows k) (hc : (o.scheduler.claim slot r.now).2 = .step w g) (hl : w.Later w') {r' : Round}
    (hn : ∀ x ∈ new, x.tenant? k (o.scheduler.slot k).generation = none) :
    Tenant k i { o with scheduler := (o.scheduler.claim slot r.now).1 } ((new ++ [.conclude r' slot g w' outcome]) ++ rest) := by
  obtain ⟨hdue, hw, rfl⟩ := Scheduler.claim_step hc
  rcases eq_or_ne k slot with rfl | hne
  · have hv := Scheduler.view_claim hknown r.now
    rw [if_pos hdue, if_neg (by simp [hw])] at hv
    refine tenant_handed ht (.inl hw) hl.id hv rfl rfl (List.mem_append_right _ (.head _)) (if_pos ⟨rfl, rfl⟩) ?_
    intro y hy v hyv
    rcases List.mem_append.1 hy with hy | hy
    · rw [hn y hy] at hyv
      cases hyv
    · obtain rfl := List.mem_singleton.1 hy
      exact (Option.some.inj ((Option.ite_none_right_eq_some.1 hyv).2)).symm
  · refine tenant_away ht (Scheduler.view_claim_ne hne r.now) rfl ?_
    intro x hx
    rcases List.mem_append.1 hx with hx | hx
    · exact hn x hx
    · obtain rfl := List.mem_singleton.1 hx
      exact if_neg fun h => hne h.1.symm

/-- A step ends after which the worker goes on, or whose worker has lost its place, or that is none of the slot's. -/
theorem tenant_conclude {r : Round} {slot g now : Nat} {w : Worker} {outcome : Outcome} (hknown : o.scheduler.Knows k)
    (ht : Tenant k i o (.conclude r slot g w outcome :: rest)) (hou : ¬ Ousts k i (.conclude r slot g w outcome :: rest)) :
    Tenant k i { o with scheduler := (o.scheduler.conclude slot g w outcome now).1 }
      (((o.scheduler.conclude slot g w outcome now).2.discarded.toList.map .discard ++
        [.close r slot (o.scheduler.conclude slot g w outcome now).2]) ++ rest) := by
  rcases ne_or_eq k slot with hne | rfl
  · refine tenant_away ht (Scheduler.view_conclude_ne hne g w outcome now) (if_neg fun h => hne h.1.symm) ?_
    intro x hx
    rcases List.mem_append.1 hx with hx | hx
    · obtain ⟨w, -, rfl⟩ := List.mem_map.1 hx
      rfl
    · obtain rfl := List.mem_singleton.1 hx
      exact if_neg (Ne.symm hne)
  by_cases hg : (o.scheduler.slot k).generation = g
  · subst hg
    have hhouse : o.Houses (.conclude r k (o.scheduler.slot k).generation w outcome :: rest) k w :=
      .inr ⟨_, .head _, if_pos ⟨rfl, rfl⟩⟩
    obtain ⟨delay, rfl⟩ : ∃ delay, outcome = .ok (.again delay) := by
      rcases outcome with fault | ⟨delay⟩ | -
      · exact absurd ⟨rfl, ht.alone w hhouse⟩ hou
      · exact ⟨delay, rfl⟩
      · exact absurd ⟨rfl, ht.alone w hhouse⟩ hou
    cases hw : (o.scheduler.slot k).worker with
    | none =>
      refine tenant_seated ht hhouse rfl (Scheduler.view_conclude_again hknown w delay now hw) rfl rfl ?_
      simp [Scheduler.conclude, hw, Task.tenant?]
    | some other =>
      refine tenant_handed (x := .close r k ⟨some other, some w, false, none⟩) ht hhouse rfl
        (Scheduler.view_conclude_over hknown w delay now hw) rfl rfl ?_ (if_pos rfl) ?_
      · simp [Scheduler.conclude, hw]
      · simp [Scheduler.conclude, hw, Task.tenant?]
  · have hv := congrArg Prod.fst (Scheduler.view_conclude_stale hg w outcome now)
    refine tenant_frame ht (congrArg Slot.worker hv) (congrArg Slot.generation hv) (if_neg fun h => hg h.2.symm) ?_
    simp [Scheduler.conclude, hg, Task.tenant?]

theorem knows_of_tenant (hk : o.Known (t :: rest)) (ht : Tenant k i o (t :: rest)) : o.scheduler.Knows k := by
  obtain ⟨w, hw | ⟨x, hx, hw⟩⟩ := ht.housed
  · exact Scheduler.knows_of_worker hw
  · refine hk.tasks x hx k ?_
    cases x with
    | conclude r slot g w' outcome =>
      obtain ⟨⟨rfl, -⟩, -⟩ := Option.ite_none_right_eq_some.1 hw
      rfl
    | seat slot w' at_ =>
      obtain ⟨rfl, -⟩ := Option.ite_none_right_eq_some.1 hw
      rfl
    | close r slot c =>
      obtain ⟨rfl, -⟩ := Option.ite_none_right_eq_some.1 hw
      rfl
    | _ => cases hw

/-- A task that does not end the tenure of a slot's worker leaves the slot to it. -/
theorem tenant_turn (hk : o.Known (t :: rest)) (ht : Tenant k i o (t :: rest)) (hou : ¬ Ousts k i (t :: rest))
    (h : Turn o t o' new) : Tenant k i o' (new ++ rest) := by
  have hknown := knows_of_tenant hk ht
  cases h with
  | quiet hq hn => exact tenant_frame ht rfl rfl (tenant_of_quiet hq) fun x hx => tenant_of_light (hn x hx)
  | dropPlace hn => exact tenant_frame ht rfl rfl rfl fun x hx => tenant_of_light (hn x hx)
  | openPlace hn | attach _ hn =>
    exact tenant_away ht ((Scheduler.view_add _).trans (if_neg (Nat.ne_of_lt hknown))) rfl fun x hx => tenant_of_light (hn x hx)
  | employ _ hn | engage _ _ hn =>
    refine tenant_frame ht rfl rfl rfl ?_
    intro x hx
    simp only [List.mem_cons] at hx
    rcases hx with rfl | rfl | hx
    · rfl
    · rfl
    · exact tenant_of_light (hn x hx)
  | rehearse _ _ hn =>
    refine tenant_frame ht rfl rfl rfl ?_
    intro x hx
    rcases List.mem_append.1 hx with hx | hx
    · exact tenant_of_light (hn x hx)
    · obtain rfl := List.mem_singleton.1 hx
      rfl
  | start | pause => exact tenant_frame ht (by simp) (by simp) rfl (by simp)
  | stop => exact tenant_away ht (Scheduler.view_stop_ne (Ne.symm hou)) rfl (by simp [Task.tenant?])
  | install => exact tenant_away ht (Scheduler.view_install_ne (Ne.symm hou) _ _) rfl (by simp)
  | @evict slot =>
    refine tenant_away ht (Scheduler.view_evict_ne (Ne.symm hou)) rfl ?_
    intro x hx
    rcases List.mem_pair.1 hx with rfl | rfl
    · rfl
    · exact if_neg hou
  | @seat slot at_ w =>
    rcases eq_or_ne k slot with rfl | hne
    · exact tenant_seated ht (.inr ⟨_, .head _, if_pos rfl⟩) rfl (Scheduler.view_install hknown w at_) rfl rfl (by simp)
    · exact tenant_away ht (Scheduler.view_install_ne hne w at_) (if_neg (Ne.symm hne)) (by simp)
  | pass hc => exact tenant_frame ht (Scheduler.worker_claim_of_not_step hc) (by simp) rfl (by simp [Task.tenant?])
  | work hc hl hn => exact tenant_work ht hknown hc hl fun x hx => tenant_of_light (hn x hx)
  | conclude => exact tenant_conclude hknown ht hou
  | @closeReturning r slot c w _ hc hn =>
    have hnone : ∀ x ∈ new, x.tenant? k (o.scheduler.slot k).generation = none := by
      rcases hn with rfl | ⟨r', rfl⟩ <;> simp [Task.tenant?]
    rcases eq_or_ne k slot with rfl | hne
    · exact tenant_seated ht (.inr ⟨_, .head _, (if_pos rfl).trans hc⟩) rfl (Scheduler.view_restore hknown w) rfl rfl hnone
    · exact tenant_away ht (Scheduler.view_restore_ne hne w) (if_neg (Ne.symm hne)) hnone
  | closeFinished hc _ hn | closeOpen hc _ hn =>
    refine tenant_frame ht rfl rfl ?_ (by rcases hn with rfl | ⟨r', rfl⟩ <;> simp [Task.tenant?])
    simp [Task.tenant?, hc]
  | endRound _ hn => exact tenant_frame ht rfl rfl rfl (by rcases hn with rfl | ⟨d, rfl⟩ <;> simp [Task.tenant?])
  | _ => exact tenant_frame ht rfl rfl rfl (by simp [Task.tenant?])

theorem tenant_call (ht : Tenant k i o []) (c : Call) : Tenant k i o [.call c .host] := by
  have hiff (w : Worker) : o.Houses [.call c .host] k w ↔ o.Houses [] k w := by simp [Office.Houses, Task.tenant?]
  exact ⟨by simpa only [hiff] using ht.housed, by simpa only [hiff] using ht.alone⟩

/-- A worker that is put into a slot is the slot's tenant, if whoever takes a step there has lost its place. -/
theorem tenant_install {w : Worker} {delay : Nat} (hk : o.Known (.install k w delay :: rest))
    (hf : Fenced k o.scheduler (.install k w delay :: rest))
    (hstale : ∀ r g v outcome, .conclude r k g v outcome ∈ rest → g < (o.scheduler.slot k).generation)
    (h : Turn o (.install k w delay) o' new) : Tenant k w.id o' (new ++ rest) := by
  have hknown : o.scheduler.Knows k := hk.tasks _ (.head _) k rfl
  -- nobody else has the slot in hand, since it is not barred
  have nobody (hb : (o.scheduler.slot k).barred = false) {x : Task} (hx : x ∈ rest) :
      x.tenant? k (o.scheduler.slot k).generation = none := by
    have hbars : ¬ x.bars k := by
      intro hbars
      have hbarred := (hf.barred ⟨x, .tail _ hx, hbars⟩).1
      rw [hb] at hbarred
      cases hbarred
    cases x with
    | conclude r slot g v outcome =>
      refine if_neg ?_
      rintro ⟨rfl, rfl⟩
      exact Nat.lt_irrefl _ (hstale r _ v outcome hx)
    | seat slot v at_ => exact if_neg hbars
    | close r slot c =>
      simp only [Task.tenant?]
      split
      · next hs => exact not_not.1 fun hr => hbars ⟨hs, hr⟩
      · rfl
    | _ => rfl
  cases h with
  | quiet hq => cases hq
  | @install _ _ at_ _ hb =>
    have hv := congrArg Prod.fst (Scheduler.view_install hknown w at_)
    refine ⟨⟨w, .inl (congrArg Slot.worker hv)⟩, ?_⟩
    rintro v (hw | ⟨x, hx, hw⟩)
    · rw [← Option.some.inj (hw.symm.trans (congrArg Slot.worker hv))]
    · rw [Scheduler.generation_install, nobody hb hx] at hw
      cases hw
  | @evict _ _ at_ _ old hb =>
    have hv := congrArg Prod.fst (Scheduler.view_evict hknown)
    refine ⟨⟨w, .inr ⟨.seat k w at_, by simp, if_pos rfl⟩⟩, ?_⟩
    rintro v (hw | ⟨x, hx, hw⟩)
    · cases hw.symm.trans (congrArg Slot.worker hv)
    · simp only [List.cons_append, List.nil_append, List.mem_cons] at hx
      rcases hx with rfl | rfl | hx
      · cases hw
      · rw [← (Option.ite_none_right_eq_some.1 hw).2.symm |> Option.some.inj]
      · rw [Scheduler.generation_evict, nobody hb hx] at hw
        cases hw

end OwnershipAux

open OwnershipAux

/-- Whether a slot belongs to the worker with a number: the slot holds it, or it takes a step there and has not lost its place, or
it goes in once another one is discarded. -/
def Machine.Houses (m : Machine) (k i : Nat) : Prop := ∃ w, m.session.office.Houses m.agenda k w ∧ w.id = i

namespace Machine

namespace Course

variable {later earlier : List Machine} {p m : Machine} {k : Nat} {rest : List Task}

/-- A worker that is put into a slot where nobody else has a place is the slot's tenant until its tenure is ended. -/
theorem tenant {w : Worker} {delay : Nat} (run : Course (later ++ p :: earlier) m) (ha : p.agenda = .install k w delay :: rest)
    (hstale : ∀ r g v outcome, .conclude r k g v outcome ∈ rest → g < (p.session.scheduler.slot k).generation)
    (kept : ∀ x ∈ later, ¬ Ousts k w.id x.agenda) : m.Crashed ∨ Tenant k w.id m.session.office m.agenda := by
  have hnot := not_crashed_of_agenda ha
  refine run.after (P := fun q => ¬ Ousts k w.id q.agenda)
    (I := fun q => q.Crashed ∨ Tenant k w.id q.session.office q.agenda) ha kept ?_ ?_ ?_
  · have hk := run.before.known.resolve_left hnot
    have hf := (run.before.fenced k).resolve_left hnot
    rw [ha] at hk hf
    rcases run.before.advance ha with hc | ⟨new, hn, turn, -, -⟩
    · exact .inl hc
    · rw [hn]
      exact .inr (tenant_install hk hf hstale turn)
  · intro past q c _ _ hq idle
    have hq := hq.resolve_left idle.not_crashed
    rw [idle.1] at hq
    exact .inr (tenant_call hq c)
  · intro past q t rest' run' hkept hq ha'
    have hnot' := not_crashed_of_agenda ha'
    have hq := hq.resolve_left hnot'
    have hk := run'.known.resolve_left hnot'
    rw [ha'] at hq hk hkept
    rcases run'.advance ha' with hc | ⟨new, hn, turn, -, -⟩
    · exact .inl hc
    · rw [hn]
      exact .inr (tenant_turn hk hq hkept turn)

end Course

end Machine

end LiveHighlight
