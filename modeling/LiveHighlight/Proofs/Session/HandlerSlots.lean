import LiveHighlight.Proofs.Session.RequestLifetime

/-!
# The slot of a handler

What is true of the slot of a handler on every course, whatever code the host lends (`Quarters`): only the handler's own parses
lodge there, a change of the slot that takes several tasks is over before anything else is done, and the slot is on the list of
pending ones only while it is in use.
-/

namespace LiveHighlight

/-- Whether a worker is a parse of a handler, at work on a job that has a property. -/
def Worker.Parses (hd : Handler) (P : ParseJob → Prop) (w : Worker) : Prop :=
  ∃ i job, w = ⟨i, .parsing hd.document job hd.token⟩ ∧ P job

/-- Whether a task may stand before another one: only workers that end in silence stand before one that settles the slot, and a
stop before one that puts a worker in. -/
def Task.Yields (k : Nat) (y x : Task) : Prop :=
  x.settles k = true → y.isSilent = true ∨ y = .stop k ∧ ∃ w delay, x = .install k w delay

/-- Whether a task ends a change of a slot by which the slot is in use, or off the list of pending ones. -/
def Task.mends (k : Nat) : Task → Bool
  | .seat slot _ _ => decide (slot = k)
  | .close _ slot c => decide (slot = k) && (c.returning.isSome || c.finished)
  | _ => false

/-- Whether a slot may be on the list of pending ones: it is in use, or a task is about to see to that. -/
def Accounted (k : Nat) (s : Scheduler Worker) (agenda : List Task) : Prop :=
  k ∈ s.pending → (s.slot k).phase ≠ .free ∨ (s.slot k).worker ≠ none ∨ ∃ x ∈ agenda, x.mends k = true

/-- What is true of the slot of a handler on every course. -/
structure Quarters (hd : Handler) (s : Session) (agenda : List Task) : Prop where
  lodgers : ∀ w, s.office.Lodges agenda hd.slot w → w.Parses hd fun _ => True
  swift : agenda.Pairwise (Task.Yields hd.slot)
  accounted : Accounted hd.slot s.scheduler agenda

namespace HandlerSlotAux

variable {s s' : Session} {o o' : Office} {t : Task} {rest new : List Task} {h k : Nat} {hd hd' : Handler} {w : Worker}
  {P : ParseJob → Prop}

theorem onDrop_of_parses (hw : w.Parses hd P) : w.onDrop = [] := by
  obtain ⟨i, job, rfl, -⟩ := hw
  rfl

theorem parses_later (later : hd.Later hd') (hw : w.Parses hd P) : w.Parses hd' P := by
  obtain ⟨i, job, rfl, hp⟩ := hw
  rw [← later.document, ← later.token]
  exact ⟨i, job, rfl, hp⟩

/-! ### Who lodges -/

/-- A worker that took a step in a round is at work on the job that the step left. -/
theorem parses_of_round {r r' : Round} {slot g : Nat} {outcome : Outcome} {k' : Desk} (page : Page s (.round r) k' new)
    (hx : .conclude r' slot g w outcome ∈ new) (hl : ∀ v, (s.scheduler.slot slot).worker = some v → v.Parses hd P)
    (hP : ∀ job cancelled b, P job → P (ParseJob.step job cancelled b).job) : w.Parses hd P := by
  cases page with
  | quiet ht => cases ht
  | pass hn => rcases hn with rfl | ⟨d, rfl⟩ | ⟨r', rfl⟩ <;> simp at hx
  | play hc =>
    simp only [List.mem_pair, reduceCtorEq, false_or, Task.conclude.injEq] at hx
    obtain ⟨-, rfl, -, rfl, -⟩ := hx
    obtain ⟨i, job, hw, -⟩ := hl _ (Scheduler.claim_step hc).2.1
    cases hw
  | work hc =>
    rcases List.mem_append.1 hx with hx | hx
    · rcases JobStep.mem_tells hx with ⟨message, -, hm⟩ | hm <;> cases hm
    · simp only [List.mem_singleton, Task.conclude.injEq] at hx
      obtain ⟨-, rfl, -, rfl, -⟩ := hx
      obtain ⟨i, job, hw, hp⟩ := hl _ (Scheduler.claim_step hc).2.1
      cases hw
      exact ⟨_, _, rfl, hP _ _ _ hp⟩

/-- The parses that lodge at a slot lodged there before, or are queued. -/
theorem lodgers_step (hl : ∀ w, s.office.Lodges (t :: rest) k w → w.Parses hd P)
    (hP : ∀ job cancelled b, P job → P (ParseJob.step job cancelled b).job)
    (hi : ∀ w delay, .install k w delay ∈ new → w.Parses hd P) (turn : Turn s.office t s'.office new)
    (page : Page s t s'.desk new) : ∀ w, s'.office.Lodges (new ++ rest) k w → w.Parses hd P := by
  rintro w (hw | ⟨x, hx, hlodger⟩)
  · rcases OriginAux.worker_turn turn hw with hw | ht
    · exact hl w (.inl hw)
    · exact hl w (.inr ⟨t, .head _, ht⟩)
  rcases List.mem_append.1 hx with hx | hx
  · cases turn.left hx with
    | light hlight =>
      rw [OriginAux.lodger_of_light hlight] at hlodger
      cases hlodger
    | employed | engaged | requested =>
      obtain ⟨rfl, rfl⟩ := OriginAux.of_lodger hlodger
      exact hi _ _ hx
    | seated => exact hl w (.inr ⟨_, .head _, hlodger⟩)
    | stepped =>
      obtain ⟨rfl, rfl⟩ := OriginAux.of_lodger hlodger
      exact parses_of_round page hx (fun v hv => hl v (.inl hv)) hP
    | closing =>
      obtain ⟨hslot, hreturn⟩ := Option.ite_none_right_eq_some.1 hlodger
      obtain rfl := OriginAux.returning_conclude hreturn
      exact hl _ (.inr ⟨_, .head _, by simp [Task.lodger?, hslot]⟩)
    | _ => cases hlodger
  · exact hl w (.inr ⟨x, .tail _ hx, hlodger⟩)

/-- Only the handler itself has a worker put into its slot, and that is a parse of its own. -/
theorem parses_of_install (own : s.office.Owned h hd.slot) (held : s.handlers[h]? = some hd)
    (turn : Turn s.office t s'.office new) (page : Page s t s'.desk new) {delay : Nat}
    (hx : .install hd.slot w delay ∈ new) : w.Parses hd fun _ => True := by
  rcases LiveHandlerAux.install_turn turn hx with ⟨name, hn⟩ | ⟨i, rfl, hi⟩
  · exact absurd hn (own.places name)
  · obtain rfl := own.desks i hi
    generalize s'.desk = k' at page
    cases page with
    | quiet ht => cases ht
    | requestNothing => cases hx
    | request hh =>
      obtain rfl := Option.some.inj (hh.symm.trans held)
      simp only [List.mem_pair, reduceCtorEq, false_or, Task.install.injEq] at hx
      obtain ⟨-, rfl, -⟩ := hx
      exact ⟨_, _, rfl, trivial⟩

/-! ### What is done at once -/

/-- Tasks that do not settle a slot may be left in any order. -/
theorem swift_of_unsettling (hn : ∀ x ∈ new, x.settles k = false) : new.Pairwise (Task.Yields k) := by
  refine List.pairwise_of_forall_mem_list fun y _ x hx hs => ?_
  rw [hn x hx] at hs
  cases hs

theorem swift_of_light (hn : ∀ x ∈ new, x.Light o) : new.Pairwise (Task.Yields k) :=
  swift_of_unsettling fun x hx => SlotInvariantAux.settles_of_light (hn x hx)

/-- The end of a step discards the worker that took it, or one that was in the slot. -/
theorem discarded_conclude {s : Scheduler Worker} {g now : Nat} {outcome : Outcome} {v : Worker}
    (hv : (s.conclude k g w outcome now).2.discarded = some v) : v = w ∨ (s.slot k).worker = some v := by
  unfold Scheduler.conclude at hv
  dsimp only at hv
  split at hv
  · exact .inl (Option.some.inj hv).symm
  · split at hv
    · split at hv
      · cases hv
      · next other hw =>
        obtain rfl := Option.some.inj (show some other = some v from hv)
        exact .inr hw
    · exact .inl (Option.some.inj hv).symm
    · exact .inl (Option.some.inj hv).symm

/-- What a task leaves is left in an order in which a slot is settled at once. -/
theorem swift_new (places : ∀ name, o.places.get? name ≠ some k) (silent : ∀ w, o.Lodges (t :: rest) k w → w.onDrop = [])
    (turn : Turn o t o' new) : new.Pairwise (Task.Yields k) := by
  cases turn with
  | quiet _ hn | openPlace hn | dropPlace hn | attach _ hn => exact swift_of_light hn
  | employ hs hn | engage hs _ hn =>
    refine swift_of_unsettling ?_
    have hne := fun he => places _ (hs.trans (congrArg some he))
    simp only [List.forall_mem_cons]
    exact ⟨rfl, decide_eq_false hne, fun x hx => SlotInvariantAux.settles_of_light (hn x hx)⟩
  | @request _ slot =>
    refine List.pairwise_pair.2 fun hs => ?_
    obtain rfl : slot = k := of_decide_eq_true hs
    exact .inr ⟨rfl, _, _, rfl⟩
  | @evict slot delay at_ w old hb hw =>
    refine List.pairwise_pair.2 fun hs => .inl ?_
    obtain rfl : slot = k := of_decide_eq_true hs
    exact List.isEmpty_iff.2 (silent old (.inl hw))
  | rehearse _ _ hn | work _ _ hn =>
    refine swift_of_unsettling fun x hx => ?_
    rcases List.mem_append.1 hx with hx | hx
    · exact SlotInvariantAux.settles_of_light (hn x hx)
    · rw [List.mem_singleton.1 hx]
      rfl
  | stop =>
    refine swift_of_unsettling fun x hx => ?_
    obtain ⟨w, -, rfl⟩ := List.mem_map.1 hx
    rfl
  | @conclude r slot g now w outcome =>
    refine List.pairwise_append.2 ⟨swift_of_unsettling ?_, List.pairwise_singleton _ _, ?_⟩
    · intro x hx
      obtain ⟨w, -, rfl⟩ := List.mem_map.1 hx
      rfl
    · intro y hy x hx hs
      obtain ⟨v, hv, rfl⟩ := List.mem_map.1 hy
      rw [List.mem_singleton.1 hx] at hs
      obtain rfl : slot = k := of_decide_eq_true hs
      refine .inl (List.isEmpty_iff.2 (silent v ?_))
      rcases discarded_conclude (Option.mem_toList.1 hv) with rfl | hv
      · exact .inr ⟨_, .head _, if_pos rfl⟩
      · exact .inl hv
  | endRound _ hn => rcases hn with rfl | ⟨d, rfl⟩ <;> simp
  | closeReturning _ hn | closeFinished _ _ hn | closeOpen _ _ hn => rcases hn with rfl | ⟨r', rfl⟩ <;> simp
  | _ => simp

/-- A change of a slot stays one that is done at once. -/
theorem swift_step (places : ∀ name, o.places.get? name ≠ some k) (silent : ∀ w, o.Lodges (t :: rest) k w → w.onDrop = [])
    (hs : (t :: rest).Pairwise (Task.Yields k)) (turn : Turn o t o' new) : (new ++ rest).Pairwise (Task.Yields k) := by
  obtain ⟨hhead, hrest⟩ := List.pairwise_cons.1 hs
  refine List.pairwise_append.2 ⟨swift_new places silent turn, hrest, ?_⟩
  intro y hy x hx hsettles
  rcases hhead x hx hsettles with hsilent | ⟨rfl, -⟩
  · exact .inl ((SlotInvariantAux.silent_turn hsilent turn).2 y hy)
  · -- what the slot held is discarded before the next worker is put in
    cases turn with
    | quiet hq => cases hq
    | stop =>
      obtain ⟨w, hw, rfl⟩ := List.mem_map.1 hy
      rw [Scheduler.stop_snd, Option.mem_toList] at hw
      exact .inl (List.isEmpty_iff.2 (silent w (.inl hw)))

/-! ### The list of pending slots -/

theorem accounted_of_view {s : Scheduler Worker} {v : Slot Worker × Nat} {agenda : List Task} (hv : s.view k = v)
    (h : v.2 ≠ 0 → v.1.phase ≠ .free ∨ v.1.worker ≠ none ∨ ∃ x ∈ agenda, x.mends k = true) : Accounted k s agenda := by
  subst hv
  exact fun hp => h (Nat.ne_of_gt (List.count_pos_iff.2 hp))

/-- A task that mends a slot takes it into use, or off the list. -/
theorem accounted_mended (hk : o.scheduler.Knows k) (ht : t.mends k = true) (turn : Turn o t o' new) :
    Accounted k o'.scheduler (new ++ rest) := by
  cases turn with
  | @seat slot at_ w =>
    obtain rfl : slot = k := of_decide_eq_true ht
    exact accounted_of_view (Scheduler.view_install hk w at_) fun _ => .inl (by simp)
  | @closeReturning _ slot _ w =>
    obtain ⟨hslot, -⟩ := (Bool.and_eq_true _ _).mp ht
    obtain rfl : slot = k := of_decide_eq_true hslot
    exact accounted_of_view (Scheduler.view_restore hk w) fun _ => .inr (.inl (by simp))
  | @closeFinished _ slot =>
    obtain ⟨hslot, -⟩ := (Bool.and_eq_true _ _).mp ht
    obtain rfl : slot = k := of_decide_eq_true hslot
    exact accounted_of_view Scheduler.view_delist fun hn => absurd rfl hn
  | closeOpen hc hf => simp [Task.mends, hc, hf] at ht
  | quiet hq =>
    cases t with
    | seat | close => cases hq
    | _ => cases ht
  | _ => cases ht

/-- A slot stays accounted for. -/
theorem accounted_step (hk : s.scheduler.Knows k) (ha : Accounted k s.scheduler (t :: rest))
    (turn : Turn s.office t s'.office new) (shift : Shift s t s'.scheduler) : Accounted k s'.scheduler (new ++ rest) := by
  by_cases ht : t.mends k = true
  · exact accounted_mended hk ht turn
  have old {x : Task} (hx : x ∈ t :: rest) (hm : x.mends k = true) : x ∈ new ++ rest := by
    rcases List.mem_cons.1 hx with rfl | hx
    · exact absurd hm ht
    · exact List.mem_append_right _ hx
  have hat := shift.shiftAt hk
  generalize hv : s'.scheduler.view k = v at hat
  generalize s'.scheduler.nextSeq = next at hat
  refine accounted_of_view hv fun hn => ?_
  cases hat with
  | same =>
    have listed := ha (List.count_pos_iff.1 (Nat.pos_of_ne_zero hn))
    exact listed.imp_right (Or.imp_right fun ⟨x, hx, hm⟩ => ⟨x, old hx hm, hm⟩)
  | start | pause | install | lend => exact .inl (by simp)
  | stop | vacate | delist => exact absurd rfl hn
  | again => exact .inr (.inl (by simp))
  | seat => simp [Task.mends] at ht
  | restore hc => simp [Task.mends, hc] at ht
  | @evict _ _ w old _ hw =>
    generalize s'.office = o' at turn
    cases turn with
    | quiet hq => cases hq
    | install _ hnone => cases hnone.symm.trans hw
    | evict => exact .inr (.inr ⟨_, List.mem_append_left _ (.tail _ (.head _)), by simp [Task.mends]⟩)
  | takeOver hw =>
    generalize s'.office = o' at turn
    cases turn with
    | quiet hq => cases hq
    | @conclude _ _ _ now =>
      refine .inr (.inr ⟨_, List.mem_append_left _ (List.mem_append_right _ (.head _)), ?_⟩)
      simp [Task.mends, Scheduler.conclude, Session.office, hw]
  | finish | fail =>
    generalize s'.office = o' at turn
    cases turn with
    | quiet hq => cases hq
    | conclude =>
      refine .inr (.inr ⟨_, List.mem_append_left _ (List.mem_append_right _ (.head _)), ?_⟩)
      simp [Task.mends, Scheduler.conclude, Session.office]

/-! ### Handlers -/

theorem quarters_step (hq : Quarters hd s (t :: rest)) (own : s.office.Owned h hd.slot) (held : s.handlers[h]? = some hd)
    (hk : s.scheduler.Knows hd.slot) (turn : Turn s.office t s'.office new) (page : Page s t s'.desk new)
    (shift : Shift s t s'.scheduler) : Quarters hd s' (new ++ rest) where
  lodgers := lodgers_step hq.lodgers (fun _ _ _ _ => trivial) (fun _ _ hx => parses_of_install own held turn page hx) turn page
  swift := swift_step own.places (fun w hw => onDrop_of_parses (hq.lodgers w hw)) hq.swift turn
  accounted := accounted_step hk hq.accounted turn shift

theorem quarters_later (later : hd.Later hd') {agenda : List Task} (hq : Quarters hd s agenda) : Quarters hd' s agenda where
  lodgers w hw := parses_later later (hq.lodgers w (by rwa [← later.slot]))
  swift := by
    rw [later.slot]
    exact hq.swift
  accounted := by
    rw [later.slot]
    exact hq.accounted

/-- A slot that there was not is on the list of pending ones for no handler that is attached. -/
theorem unlisted_new {name : String} {plan : HandlerPlan String} {asker : Asker}
    (hk : o.Known (.call (.handler name plan) asker :: rest)) (turn : Turn o (.call (.handler name plan) asker) o' new) :
    o.scheduler.slots.length ∉ o'.scheduler.pending := by
  have fresh : ¬ o.scheduler.Knows o.scheduler.slots.length := Nat.lt_irrefl _
  have hcount := hk.pending _ fresh
  have hne {slot : Nat} (hs : o.Refers slot) : o.scheduler.slots.length ≠ slot := fun he => fresh (he ▸ hk.refers slot hs)
  refine List.count_eq_zero.1 ?_
  cases turn with
  | quiet | attach => exact hcount
  | start hs => exact (congrArg Prod.snd (Scheduler.view_start_ne (hne hs) _)).trans hcount
  | pause hs => exact (congrArg Prod.snd (Scheduler.view_pause_ne (hne hs))).trans hcount

/-- No change of the slot is under way where anything else is to be done. -/
theorem unsettling_of_head (hq : Quarters hd s (t :: rest)) (hsilent : t.isSilent = false) (hstop : t ≠ .stop hd.slot) :
    ∀ x ∈ rest, x.settles hd.slot = false := by
  intro x hx
  cases hs : x.settles hd.slot with
  | false => rfl
  | true =>
    rcases (List.pairwise_cons.1 hq.swift).1 x hx hs with he | ⟨he, -⟩
    · rw [hsilent] at he
      cases he
    · exact absurd he hstop

/-- Nothing lodges at the slot of a handler that is attached. -/
theorem quarters_new {name : String} {plan : HandlerPlan String} {asker : Asker}
    (hk : s.office.Known (.call (.handler name plan) asker :: rest))
    (turn : Turn s.office (.call (.handler name plan) asker) s'.office new) (hslot : hd.slot = s.scheduler.slots.length) :
    Quarters hd s' (new ++ rest) := by
  have fresh {x : Task} (hx : x ∈ new ++ rest) : x.slot? ≠ some hd.slot := by
    rw [hslot]
    exact LiveHandlerAux.slot_fresh hk turn hx
  refine ⟨?_, swift_of_unsettling fun x hx => SlotInvariantAux.settles_of_slot (fresh hx), fun hp => ?_⟩
  · rintro w (hw | ⟨x, hx, hl⟩)
    · exact absurd (.inl hw) (hslot ▸ LiveHandlerAux.not_engages_new hk turn)
    · exact absurd (OriginAux.slot_of_lodger hl) (fresh hx)
  · rw [hslot] at hp
    exact absurd hp (unlisted_new hk turn)

end HandlerSlotAux

open HandlerSlotAux

namespace Machine

namespace Course

/-- The quarters of a handler are in order on every course. -/
theorem quarters {past : List Machine} {m : Machine} {h : Nat} {hd : Handler} (run : Course past m)
    (held : m.session.handlers[h]? = some hd) : m.Crashed ∨ Quarters hd m.session m.agenda := by
  induction run generalizing hd with
  | new options => simp [Session.new] at held
  | @ask past m c run idle ih =>
    have hq := (ih held).resolve_left idle.not_crashed
    rw [idle.1] at hq
    refine .inr ⟨?_, List.pairwise_singleton _ _, fun hp => ?_⟩
    · rintro w (hw | ⟨x, hx, hl⟩)
      · exact hq.lodgers w (.inl hw)
      · rw [List.mem_singleton.1 hx] at hl
        cases hl
    · rcases hq.accounted hp with hu | hu | ⟨x, hx, -⟩
      · exact .inl hu
      · exact .inr (.inl hu)
      · cases hx
  | @step past m t rest run ha ih =>
    have hnot := not_crashed_of_agenda ha
    have hk := run.known.resolve_left hnot
    rw [ha] at hk
    rcases run.page ha with hc | ⟨new, hn, turn, page⟩
    · exact .inl hc
    rw [hn]
    rcases AttendanceAux.handler_page page held with ⟨hd₀, held₀, later⟩ | ⟨rfl, hslot, -, -, name, plan, asker, rfl⟩
    · have own := (FateAux.owned run held₀).resolve_left hnot
      have hknown := hk.refers _ (.inr (List.mem_of_getElem? own.own))
      have hq := (ih held₀).resolve_left hnot
      rw [ha] at hq
      exact .inr (quarters_later later (quarters_step hq own held₀ hknown turn page ({ m with agenda := rest }.run_shift t)))
    · exact .inr (quarters_new hk turn hslot)

end Course

end Machine

end LiveHighlight
