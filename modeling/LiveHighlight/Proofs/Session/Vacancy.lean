import LiveHighlight.Proofs.Session.Fates
import LiveHighlight.Proofs.Session.HandlerSlots

/-!
# Slots that are left vacant

When the slot of a handler is stopped and no parse is requested any more, the slot stays as the stop leaves it: free, empty and
off the list of pending ones (`Course.vacant`). Nothing else happens until the stop is over (`Course.stops`).

There is one exception. A round may have freed the slot while its worker takes a step after which it goes on, and then the stop
does not count the slot on, so the worker goes back to it (`Machine.Recalls`). The slot is free and off the list even then,
until it is started (`Course.rests`). The parse must have told an error site of a failure, and the site must have made calls and
let work run: a session whose error sites make no calls has no such slot (`Course.speaks`), nor has one in which no code that
the host lent lets work run (`Course.reenters`).
-/

namespace LiveHighlight

/-- Whether a task has a worker in hand that goes into a slot whatever happened to the slot. -/
def Task.fills (k : Nat) : Task → Bool
  | .install slot _ _ | .seat slot _ _ => decide (slot = k)
  | .close _ slot c => decide (slot = k) && c.returning.isSome
  | _ => false

/-- Whether a task puts a worker into a slot that was not there before. -/
def Task.seats (k : Nat) : Task → Bool
  | .install slot _ _ | .seat slot _ _ => decide (slot = k)
  | _ => false

/-- Whether a slot is free and off the list of pending ones. -/
def Scheduler.Rests {ω : Type} (s : Scheduler ω) (k : Nat) : Prop := (s.slot k).phase = .free ∧ k ∉ s.pending

/-- Whether it holds no worker either. -/
def Scheduler.Unused {ω : Type} (s : Scheduler ω) (k : Nat) : Prop := s.Rests k ∧ (s.slot k).worker = none

/-- Whether the first task starts or pauses a slot. -/
def Machine.Arms (m : Machine) (k : Nat) : Prop := ∃ c asker rest, m.agenda = .call c asker :: rest ∧ m.session.Arms k c

/-- Whether a slot is free, empty and off the list of pending ones, and no task that is left puts a worker into it. -/
structure Vacant (k : Nat) (s : Scheduler Worker) (agenda : List Task) : Prop where
  rests : s.Rests k
  empty : (s.slot k).worker = none
  unfilled : ∀ x ∈ agenda, x.fills k = false
  stale : ∀ r g w delay, .conclude r k g w (.ok (.again delay)) ∈ agenda → g < (s.slot k).generation

/-- Whether some error site makes calls when it is told something. -/
def Session.Speaks (s : Session) : Prop := ∃ d c calls, (s.document d).site = some (c :: calls)

/-- Whether a task ends a step after which a parse goes on. -/
def Task.continues : Task → Bool
  | .conclude _ _ _ w (.ok (.again _)) => w.document?.isSome
  | _ => false

/-- Whether a task may stand before another one where error sites make no calls: only the complaint of a parse, and what comes
of it in silence, stands before the end of its step. -/
def Task.Hushed (y x : Task) : Prop :=
  x.continues = true → y.isSilent = true ∨ ∃ d source message, y = .complain d source message

/-- Whether a slot looks unused although a worker is under way that goes back to it. -/
def Machine.Recalls (m : Machine) (k : Nat) : Prop :=
  (m.session.scheduler.slot k).phase = .free ∧ (m.session.scheduler.slot k).worker = none ∧
    ∃ r w delay, .conclude r k (m.session.scheduler.slot k).generation w (.ok (.again delay)) ∈ m.agenda

namespace VacancyAux

variable {s : Session} {s' : Scheduler Worker} {o o' : Office} {t : Task} {rest new : List Task} {h k : Nat} {hd : Handler}

theorem fills_of_settles {x : Task} (hx : x.settles k = false) : x.fills k = false := by
  cases x with
  | install | seat => exact hx
  | close => simp [Task.fills, show decide _ = false from hx]
  | _ => rfl

theorem seats_of_settles {x : Task} (hx : x.settles k = false) : x.seats k = false := by
  cases x with
  | install | seat => exact hx
  | _ => rfl

theorem seats_of_fills {x : Task} (hx : x.fills k = false) : x.seats k = false := by
  cases x with
  | install | seat => exact hx
  | _ => rfl

theorem mends_of_settles {x : Task} (hx : x.settles k = false) : x.mends k = false := by
  cases x with
  | seat => exact hx
  | close => simp [Task.mends, show decide _ = false from hx]
  | _ => rfl

/-- A course goes on from what a task makes of a machine that was passed. -/
theorem next_course {later earlier : List Machine} {p m : Machine} (run : Machine.Course (later ++ p :: earlier) m)
    (ha : p.agenda = t :: rest) :
    m = { p with agenda := rest }.run t ∧ later = [] ∨ ∃ later', later = later' ++ [{ p with agenda := rest }.run t] ∧
      Machine.Course (later' ++ { p with agenda := rest }.run t :: p :: earlier) m := by
  rcases FateAux.next_split run ha with hm | ⟨later', rfl⟩
  · exact .inl hm
  · rw [List.append_assoc, List.singleton_append] at run
    exact .inr ⟨later', rfl, run⟩

/-- A machine with other tasks than the first one of a stretch comes after it. -/
theorem mem_of_agenda {later : List Machine} {m n c : Machine} (hc : c ∈ m :: (later ++ [n])) (ha : c.agenda = rest)
    (hn : n.agenda ≠ rest) : c ∈ m :: later := by
  rw [← List.cons_append] at hc
  refine (List.mem_append.1 hc).resolve_right fun hc => hn ?_
  rw [← List.mem_singleton.1 hc, ha]

/-- A machine that was passed has not crashed. -/
theorem not_crashed_of_passed {past : List Machine} {m c : Machine} (run : Machine.Course past m) (hc : c ∈ past) :
    ¬ c.Crashed := by
  induction run with
  | new options => cases hc
  | ask call run idle ih =>
    rcases List.mem_cons.1 hc with rfl | hc
    · exact idle.not_crashed
    · exact ih hc
  | step run ha ih =>
    rcases List.mem_cons.1 hc with rfl | hc
    · exact Machine.not_crashed_of_agenda ha
    · exact ih hc

/-! ### What a slot at rest goes through -/

theorem rests_of_view {s : Scheduler Worker} {v : Slot Worker × Nat} (hview : s.view k = v) (free : v.1.phase = .free)
    (hcount : v.2 = 0) : s.Rests k := by
  subst hview
  exact ⟨free, List.count_eq_zero.1 hcount⟩

/-- A slot at rest stays so, unless a worker is put into it, or it has one and is started. -/
theorem rests_shift (hr : s.scheduler.Rests k) (hk : s.scheduler.Knows k) (unseated : t.seats k = false)
    (unarmed : ∀ c asker, t = .call c asker → s.Arms k c → (s.scheduler.slot k).worker = none) (shift : Shift s t s') :
    s'.Rests k := by
  obtain ⟨free, unlisted⟩ := hr
  have hnone : s.scheduler.pending.count k = 0 := List.count_eq_zero.2 unlisted
  have same (hview : s'.view k = s.scheduler.view k) := rests_of_view hview free hnone
  cases shift with
  | same => exact same rfl
  | add => exact same ((Scheduler.view_add _).trans (if_neg (Nat.ne_of_lt hk)))
  | @start c asker slot _ ha =>
    rcases eq_or_ne k slot with rfl | hne
    · exact same ((Scheduler.view_start hk _).trans (if_pos ⟨unarmed c asker rfl ha, by simp [free]⟩))
    · exact same (Scheduler.view_start_ne hne _)
  | @pause _ _ slot =>
    rcases eq_or_ne k slot with rfl | hne
    · exact same ((Scheduler.view_pause hk).trans (if_pos free))
    · exact same (Scheduler.view_pause_ne hne)
  | @stop slot =>
    rcases eq_or_ne k slot with rfl | hne
    · have hview := Scheduler.view_stop hk
      split at hview
      · exact same hview
      · exact rests_of_view hview rfl rfl
    · exact same (Scheduler.view_stop_ne hne)
  | install | seat => exact same (Scheduler.view_install_ne (Ne.symm (of_decide_eq_false unseated)) _ _)
  | evict => exact same (Scheduler.view_evict_ne (Ne.symm (of_decide_eq_false unseated)))
  | @claim r slot =>
    rcases eq_or_ne k slot with rfl | hne
    · exact same ((Scheduler.view_claim hk _).trans (if_neg (by simp [Slot.isDue, free])))
    · exact same (Scheduler.view_claim_ne hne _)
  | @conclude r slot g w outcome =>
    rcases eq_or_ne k slot with rfl | hne
    · by_cases hg : (s.scheduler.slot k).generation = g
      · subst hg
        rcases outcome with fault | ⟨delay⟩ | -
        · exact rests_of_view (Scheduler.view_conclude_error hk _ _ _) rfl hnone
        · cases hw : (s.scheduler.slot k).worker with
          | none => exact rests_of_view (Scheduler.view_conclude_again hk _ _ _ hw) (by simp [free]) hnone
          | some other => exact rests_of_view (Scheduler.view_conclude_over hk _ _ _ hw) (by simp [free]) hnone
        · exact rests_of_view (Scheduler.view_conclude_finished hk _ _) rfl hnone
      · exact same (Scheduler.view_conclude_stale hg _ _ _)
    · exact same (Scheduler.view_conclude_ne hne _ _ _ _)
  | @restore r slot c w =>
    rcases eq_or_ne k slot with rfl | hne
    · exact rests_of_view (Scheduler.view_restore hk _) free hnone
    · exact same (Scheduler.view_restore_ne hne _)
  | @delist r slot =>
    rcases eq_or_ne k slot with rfl | hne
    · exact rests_of_view Scheduler.view_delist free rfl
    · exact same (Scheduler.view_delist_ne hne)

/-- A slot that is stopped is empty. -/
theorem worker_stop {s : Scheduler Worker} (hk : s.Knows k) : ((s.stop k).1.slot k).worker = none := by
  have hview := congrArg (fun v => v.1.worker) (Scheduler.view_stop hk)
  dsimp only at hview
  split at hview
  · next hunused => exact hview.trans hunused.2
  · exact hview

/-- A slot is at rest when it is stopped and nothing else is about to settle it. -/
theorem rests_stop {s : Scheduler Worker} (hk : s.Knows k) (accounted : Accounted k s (.stop k :: rest))
    (alone : ∀ x ∈ rest, x.settles k = false) : (s.stop k).1.Rests k := by
  have hview := Scheduler.view_stop hk
  split at hview
  · next hunused =>
    refine rests_of_view hview hunused.1 (List.count_eq_zero.2 fun hp => ?_)
    rcases accounted hp with hu | hu | ⟨x, hx, hm⟩
    · exact hu hunused.1
    · exact hu hunused.2
    · rcases List.mem_cons.1 hx with rfl | hx
      · cases hm
      · rw [mends_of_settles (alone x hx)] at hm
        cases hm
  · exact rests_of_view hview rfl rfl

/-- No task is left that puts another worker into a slot, unless a parse is requested. -/
theorem unseated_turn (unseated : t.seats k = false) (hi : ∀ w delay, .install k w delay ∉ new) (turn : Turn o t o' new) :
    ∀ x ∈ new, x.seats k = false := by
  have install {slot delay : Nat} {w : Worker} (hx : .install slot w delay ∈ new) : decide (slot = k) = false := by
    refine decide_eq_false ?_
    rintro rfl
    exact hi _ _ hx
  intro x hx
  cases turn.left hx with
  | light hlight => exact seats_of_settles (SlotInvariantAux.settles_of_light hlight)
  | employed | engaged | requested => exact install hx
  | seated => exact unseated
  | _ => rfl

/-! ### What a vacant slot goes through -/

/-- A vacant slot stays empty. -/
theorem empty_shift (hv : Vacant k s.scheduler (t :: rest)) (hk : s.scheduler.Knows k) (shift : Shift s t s') :
    (s'.slot k).worker = none := by
  have hat := shift.shiftAt hk
  have unfilled := hv.unfilled t (.head _)
  suffices h : ∀ v next, ShiftAt s k t v next → v.1.worker = none from h _ _ hat
  intro v next hat
  cases hat with
  | install | seat => simp [Task.fills] at unfilled
  | restore hc => simp [Task.fills, hc] at unfilled
  | stop | lend | evict | takeOver => rfl
  | again => exact absurd (hv.stale _ _ _ _ (.head _)) (Nat.lt_irrefl _)
  | _ => exact hv.empty

/-- A step that ends while its slot is empty gives no worker back by way of another task. -/
theorem returning_of_empty {s : Scheduler Worker} {g now : Nat} {w : Worker} {outcome : Outcome}
    (he : (s.slot k).worker = none) : (s.conclude k g w outcome now).2.returning = none := by
  unfold Scheduler.conclude
  dsimp only
  split
  · rfl
  · split
    · simp only [he]
    · rfl
    · rfl

/-- No task is left that puts a worker into a vacant slot, unless a parse is requested. -/
theorem unfilled_turn (empty : (o.scheduler.slot k).worker = none) (unfilled : t.fills k = false)
    (hi : ∀ w delay, .install k w delay ∉ new) (turn : Turn o t o' new) : ∀ x ∈ new, x.fills k = false := by
  have install {slot delay : Nat} {w : Worker} (hx : .install slot w delay ∈ new) : (Task.install slot w delay).fills k = false := by
    refine decide_eq_false ?_
    rintro rfl
    exact hi _ _ hx
  intro x hx
  cases turn.left hx with
  | light hlight => exact fills_of_settles (SlotInvariantAux.settles_of_light hlight)
  | employed | engaged | requested => exact install hx
  | seated => exact unfilled
  | @closing r slot =>
    by_cases hs : slot = k
    · subst hs
      simp [Task.fills, returning_of_empty empty]
    · simp [Task.fills, hs]
  | _ => rfl

theorem vacant_step {s' : Session} (hv : Vacant k s.scheduler (t :: rest)) (hk : s.scheduler.Knows k)
    (turn : Turn s.office t s'.office new) (shift : Shift s t s'.scheduler) (hi : ∀ w delay, .install k w delay ∉ new) :
    Vacant k s'.scheduler (new ++ rest) := by
  have unfilled := hv.unfilled t (.head _)
  refine ⟨rests_shift hv.rests hk (seats_of_fills unfilled) (fun _ _ _ _ => hv.empty) shift, empty_shift hv hk shift, ?_, ?_⟩
  · intro x hx
    rcases List.mem_append.1 hx with hx | hx
    · exact unfilled_turn hv.empty unfilled hi turn x hx
    · exact hv.unfilled x (.tail _ hx)
  · intro r g w delay hx
    rcases List.mem_append.1 hx with hx | hx
    · cases turn.left hx with
      | light hlight => cases hlight
      | stepped hc => cases (Scheduler.claim_step hc).2.1.symm.trans hv.empty
    · exact Nat.lt_of_lt_of_le (hv.stale r g w delay (.tail _ hx)) (shift.generation_le k)

/-- What a stop leaves: the worker that was in the slot is to be discarded. -/
theorem of_stop {p : Scheduler Worker → List Task → Prop} (turn : Turn o (.stop k) o' new)
    (h : p (o.scheduler.stop k).1 ((o.scheduler.stop k).2.toList.map .discard ++ rest)) : p o'.scheduler (new ++ rest) := by
  cases turn with
  | quiet hq => cases hq
  | stop => exact h

theorem unsettling_discards {old : Option Worker} (alone : ∀ x ∈ rest, x.settles k = false) :
    ∀ x ∈ old.toList.map Task.discard ++ rest, x.settles k = false := by
  intro x hx
  rcases List.mem_append.1 hx with hx | hx
  · obtain ⟨w, -, rfl⟩ := List.mem_map.1 hx
    rfl
  · exact alone x hx

/-- A stop leaves a slot vacant that nothing else is about to settle. -/
theorem vacant_stop {p : Machine} (ha : p.agenda = .stop k :: rest) (hk : p.session.scheduler.Knows k)
    (dated : Dated p.session.scheduler p.agenda) (accounted : Accounted k p.session.scheduler p.agenda)
    (alone : ∀ x ∈ rest, x.settles k = false) (fresh : ¬ p.Recalls k) :
    Vacant k (p.session.scheduler.stop k).1 ((p.session.scheduler.stop k).2.toList.map .discard ++ rest) := by
  have under {r : Round} {g delay : Nat} {w : Worker}
      (hx : .conclude r k g w (.ok (.again delay)) ∈ (p.session.scheduler.stop k).2.toList.map .discard ++ rest) :
      .conclude r k g w (.ok (.again delay)) ∈ p.agenda := by
    rw [ha]
    rcases List.mem_append.1 hx with hx | hx
    · obtain ⟨v, -, he⟩ := List.mem_map.1 hx
      cases he
    · exact .tail _ hx
  have rests := rests_stop hk (ha ▸ accounted) alone
  have unfilled : ∀ x ∈ (p.session.scheduler.stop k).2.toList.map .discard ++ rest, x.fills k = false :=
    fun x hx => fills_of_settles (unsettling_discards alone x hx)
  have hslot := congrArg Prod.fst (Scheduler.view_stop hk)
  split at hslot
  · next hunused =>
    refine ⟨rests, worker_stop hk, unfilled, ?_⟩
    intro r g w delay hx
    refine Nat.lt_of_lt_of_eq (Nat.lt_of_le_of_ne (dated _ _ _ _ _ (under hx)) ?_) (congrArg Slot.generation hslot).symm
    rintro rfl
    exact fresh ⟨hunused.1, hunused.2, r, w, delay, under hx⟩
  · refine ⟨rests, worker_stop hk, unfilled, ?_⟩
    intro r g w delay hx
    exact Nat.lt_of_lt_of_eq (Nat.lt_succ_of_le (dated _ _ _ _ _ (under hx))) (congrArg Slot.generation hslot).symm

/-- What leaves the schedule alone and ends no step leaves a slot to recall what it recalled before. -/
theorem recalls_of {n p : Machine} (hs : n.session.scheduler = p.session.scheduler)
    (hc : ∀ x ∈ n.agenda, x.concludes k = true → x ∈ p.agenda) (hr : n.Recalls k) : p.Recalls k := by
  obtain ⟨free, empty, r, w, delay, hx⟩ := hr
  rw [hs] at free empty hx
  exact ⟨free, empty, r, w, delay, hc _ hx (decide_eq_true rfl)⟩

/-- Only a handler that is not cancelled has a worker put into its slot, and it does so on request. -/
theorem requests_of_install {q : Machine} (own : q.session.office.Owned h k) (held : q.session.handlers[h]? = some hd)
    (ha : q.agenda = t :: rest) (hn : ({ q with agenda := rest }.run t).agenda = new ++ rest)
    (turn : Turn q.session.office t o' new) {w : Worker} {delay : Nat} (hx : .install k w delay ∈ new) : ∃ i, q.Requests h i := by
  rcases LiveHandlerAux.install_turn turn hx with ⟨name, hname⟩ | ⟨i, rfl, hi⟩
  · exact absurd hname (own.places name)
  · obtain rfl := own.desks i hi
    cases safe : q.session.isCancelled hd.token with
    | false => exact ⟨_, hd, rest, ha, held, safe, rfl⟩
    | true =>
      have hnone : new = [] := by simpa [Machine.run, Machine.requestParse, held, safe] using hn
      rw [hnone] at hx
      cases hx

/-! ### Parses that go on -/

/-- A parse that goes on announces nothing. -/
theorem announces_of_again {job : ParseJob} {cancelled : Bool} {b : Buffer} {delay : Nat}
    (h : (job.step cancelled b).next = .again delay) : (job.step cancelled b).announces = false := by
  unfold ParseJob.step at h ⊢
  split
  · rfl
  · next hc =>
    rw [if_neg hc] at h
    split
    · rfl
    · rfl
    · next hp => rw [hp] at h; cases h
    · rfl

theorem again_of_continues {r : Round} {slot g : Nat} {w : Worker} {outcome : Outcome}
    (h : (Task.conclude r slot g w outcome).continues = true) :
    w.document?.isSome = true ∧ ∃ delay, outcome = .ok (.again delay) := by
  unfold Task.continues at h
  split at h
  · next he =>
    cases he
    exact ⟨h, _, rfl⟩
  · cases h

/-- What a task leaves is left in an order in which only complaints come before the end of a step. -/
theorem hushed_new {s' : Session} (turn : Turn s.office t s'.office new) (page : Page s t s'.desk new) :
    new.Pairwise Task.Hushed := by
  have others (hn : ∀ x ∈ new, x.continues = false) : new.Pairwise Task.Hushed := by
    refine List.pairwise_of_forall_mem_list fun y _ x hx hc => ?_
    rw [hn x hx] at hc
    cases hc
  by_cases hround : ∃ r, t = .round r
  · obtain ⟨r, rfl⟩ := hround
    generalize s'.desk = k' at page
    cases page with
    | quiet ht => cases ht
    | pass hn => rcases hn with rfl | ⟨d, rfl⟩ | ⟨r', rfl⟩ <;> simp
    | play => exact List.pairwise_pair.2 fun hx => by cases (again_of_continues hx).1
    | work =>
      refine List.pairwise_append.2 ⟨?_, List.pairwise_singleton _ _, ?_⟩
      · refine List.pairwise_of_forall_mem_list fun y _ x hx hc => ?_
        rcases JobStep.mem_tells hx with ⟨message, -, rfl⟩ | rfl <;> cases hc
      · intro y hy x hx hc
        rw [List.mem_singleton.1 hx] at hc
        obtain ⟨-, delay, he⟩ := again_of_continues hc
        rw [JobStep.tells, announces_of_again (Except.ok.inj he)] at hy
        obtain ⟨message, -, rfl⟩ : ∃ message, _ ∧ _ := by simpa using hy
        exact .inr ⟨_, _, _, rfl⟩
  · refine others fun x hx => ?_
    cases turn.left hx with
    | @light _ x hlight =>
      cases x with
      | conclude => cases hlight
      | _ => rfl
    | stepped => exact absurd ⟨_, rfl⟩ hround
    | _ => rfl

/-- Error sites that make no calls listen in silence. -/
theorem silent_of_complain {q : Machine} {d : Nat} {source message : String} (mute : ¬ q.session.Speaks)
    (hn : ({ q with agenda := rest }.run (.complain d source message)).agenda = new ++ rest) : ∀ x ∈ new, x.isSilent = true := by
  have nothing (he : rest = new ++ rest) : ∀ x ∈ new, x.isSilent = true := by
    rw [show new = [] by simpa using he]
    simp
  simp only [Machine.run, Machine.complain] at hn
  split at hn
  · exact nothing hn
  · next calls hsite =>
    cases calls with
    | nil =>
      obtain rfl : [.script []] = new := List.append_cancel_right hn
      simp [Task.isSilent]
    | cons c calls => exact absurd ⟨d, c, calls, hsite⟩ mute

theorem hushed_step {q : Machine} (mute : ¬ q.session.Speaks) (ha : (t :: rest).Pairwise Task.Hushed)
    (hn : ({ q with agenda := rest }.run t).agenda = new ++ rest)
    (turn : Turn q.session.office t ({ q with agenda := rest }.run t).session.office new)
    (page : Page q.session t ({ q with agenda := rest }.run t).session.desk new) : (new ++ rest).Pairwise Task.Hushed := by
  obtain ⟨hhead, hrest⟩ := List.pairwise_cons.1 ha
  refine List.pairwise_append.2 ⟨hushed_new turn page, hrest, ?_⟩
  intro y hy x hx hc
  rcases hhead x hx hc with hsilent | ⟨d, source, message, rfl⟩
  · exact .inl ((SlotInvariantAux.silent_turn hsilent turn).2 y hy)
  · exact .inl (silent_of_complain mute hn y hy)

end VacancyAux

open VacancyAux

namespace Machine

namespace Course

variable {later earlier : List Machine} {p m : Machine} {rest next : List Task} {h k : Nat} {hd : Handler}

/-- Until a task is over, what it leaves is done, and what that leaves; then the next task follows. -/
theorem interlude {I : List Task → Prop} {t : Task} (run : Course (later ++ p :: earlier) m) (ha : p.agenda = t :: next)
    (start : ∀ {o' : Office} {new : List Task}, Turn p.session.office t o' new → I new)
    (step : ∀ {o o' : Office} {x : Task} {pre new : List Task}, I (x :: pre) → Turn o x o' new → I (new ++ pre)) :
    m.Crashed ∨ (∃ pre, m.agenda = pre ++ next ∧ I pre) ∨ ∃ q ∈ later, q.agenda = next := by
  induction later generalizing m with
  | nil =>
    cases run with
    | ask c run idle =>
      rw [idle.1] at ha
      cases ha
    | step run ha' =>
      rw [ha] at ha'
      obtain ⟨rfl, rfl⟩ := List.cons.inj ha'
      rcases run.turn ha with ⟨hc, -⟩ | ⟨new, hn, turn, -⟩
      · exact .inl hc
      · exact .inr (.inl ⟨new, hn, start turn⟩)
  | cons x later ih =>
    cases run with
    | ask c run idle =>
      rcases (ih run).resolve_left idle.not_crashed with ⟨pre, hx, -⟩ | ⟨q, hq, hnext⟩
      · rw [idle.1] at hx
        exact .inr (.inr ⟨x, .head _, idle.1.trans (List.append_eq_nil_iff.1 hx.symm).2.symm⟩)
      · exact .inr (.inr ⟨q, .tail _ hq, hnext⟩)
    | @step _ _ y rest run hx =>
      rcases (ih run).resolve_left (not_crashed_of_agenda hx) with ⟨pre, hpre, hp⟩ | ⟨q, hq, hnext⟩
      · cases pre with
        | nil => exact .inr (.inr ⟨x, .head _, hpre⟩)
        | cons z pre =>
          obtain ⟨rfl, rfl⟩ := List.cons.inj (hx.symm.trans hpre)
          rcases run.turn hx with ⟨hc, -⟩ | ⟨new, hn, turn, -⟩
          · exact .inl hc
          · exact .inr (.inl ⟨new ++ pre, hn.trans (List.append_assoc ..).symm, step hp turn⟩)
      · exact .inr (.inr ⟨q, .tail _ hq, hnext⟩)

/-- A task is over when a course has come to an end. -/
theorem ends {t : Task} (run : Course (later ++ p :: earlier) m) (ha : p.agenda = t :: next) (idle : m.Idle) :
    ∃ q ∈ m :: later, q.agenda = next := by
  rcases (run.interlude (I := fun _ => True) ha (fun _ => trivial) fun _ _ => trivial).resolve_left idle.not_crashed with
    ⟨pre, hpre, -⟩ | ⟨q, hq, hnext⟩
  · rw [idle.1] at hpre
    exact ⟨m, .head _, idle.1.trans (List.append_eq_nil_iff.1 hpre.symm).2.symm⟩
  · exact ⟨q, .tail _ hq, hnext⟩

/-- Until a stop is over, nothing else is done: workers end in silence, and the next task follows. -/
theorem stops (run : Course (later ++ p :: earlier) m) (ha : p.agenda = .stop k :: next)
    (silent : ∀ w, (p.session.scheduler.slot k).worker = some w → w.onDrop = []) :
    m.Crashed ∨ (∃ pre, m.agenda = pre ++ next ∧ ∀ x ∈ pre, x.isSilent = true) ∨ ∃ q ∈ later, q.agenda = next := by
  refine run.interlude (I := fun pre => ∀ x ∈ pre, x.isSilent = true) ha ?_ ?_
  · intro o' new turn x hx
    cases turn with
    | quiet hq => cases hq
    | stop =>
      obtain ⟨w, hw, rfl⟩ := List.mem_map.1 hx
      rw [Scheduler.stop_snd, Option.mem_toList] at hw
      exact List.isEmpty_iff.2 (silent w hw)
  · intro o o' x pre new hp turn z hz
    rcases List.mem_append.1 hz with hz | hz
    · exact (SlotInvariantAux.silent_turn (hp _ (.head _)) turn).2 z hz
    · exact hp z (.tail _ hz)

/-- Once less is left to do than after the stop of a handler's slot, what was to follow the stop has been begun. -/
theorem passes (run : Course (later ++ p :: earlier) m) (ha : p.agenda = .stop hd.slot :: next)
    (held : p.session.handlers[h]? = some hd) (shorter : ∃ q ∈ m :: later, q.agenda.length < next.length) :
    m.Crashed ∨ ∃ c ∈ later, c.agenda = next := by
  have quarters := (run.before.quarters held).resolve_left (not_crashed_of_agenda ha)
  have silent : ∀ w, (p.session.scheduler.slot hd.slot).worker = some w → w.onDrop = [] :=
    fun w hw => HandlerSlotAux.onDrop_of_parses (quarters.lodgers w (.inl hw))
  obtain ⟨q, hq, hlt⟩ := shorter
  obtain ⟨between, run', hsub⟩ := run.of_later hq
  rcases run'.stops ha silent with hc | ⟨pre, hpre, -⟩ | ⟨c, hc, hnext⟩
  · rcases List.mem_cons.1 hq with rfl | hq
    · exact .inl hc
    · exact absurd hc (not_crashed_of_passed run (List.mem_append_left _ hq))
  · rw [hpre, List.length_append] at hlt
    omega
  · exact .inr ⟨c, hsub hc, hnext⟩

/-- What holds of a handler's slot once it is stopped, and is kept until a parse is requested, holds until then. -/
theorem since_stop {I : Scheduler Worker → List Task → Prop} (run : Course (later ++ p :: earlier) m)
    (ha : p.agenda = .stop hd.slot :: rest) (held : p.session.handlers[h]? = some hd)
    (unasked : ∀ q ∈ later, ∀ i, ¬ q.Requests h i)
    (start : p.session.scheduler.Knows hd.slot →
      I (p.session.scheduler.stop hd.slot).1 ((p.session.scheduler.stop hd.slot).2.toList.map .discard ++ rest))
    (ask : ∀ {s : Scheduler Worker} (c : Call), I s [] → I s [.call c .host])
    (step : ∀ {q : Machine} {t : Task} {tasks new : List Task} {s' : Session}, q ∈ later → q.agenda = t :: tasks →
      I q.session.scheduler (t :: tasks) → q.session.scheduler.Knows hd.slot → Turn q.session.office t s'.office new →
      Page q.session t s'.desk new → Shift q.session t s'.scheduler → (∀ w delay, .install hd.slot w delay ∉ new) →
      I s'.scheduler (new ++ tasks)) :
    m.Crashed ∨ I m.session.scheduler m.agenda := by
  have knows {past : List Machine} {q : Machine} (run : Course past q) {t : Task} {tasks : List Task} (hq : q.agenda = t :: tasks)
      (own : q.session.office.Owned h hd.slot) : q.session.scheduler.Knows hd.slot :=
    (run.known.resolve_left (not_crashed_of_agenda hq)).refers _ (.inr (List.mem_of_getElem? own.own))
  have owned {past : List Machine} {q : Machine} (run : Course past q) {t : Task} {tasks : List Task} (hq : q.agenda = t :: tasks)
      {hd' : Handler} (held' : q.session.handlers[h]? = some hd') (later' : hd.Later hd') : q.session.office.Owned h hd.slot :=
    later'.slot ▸ (FateAux.owned run held').resolve_left (not_crashed_of_agenda hq)
  refine (run.after (P := (· ∈ later)) (I := fun q => q.Crashed ∨ (∃ hd', q.session.handlers[h]? = some hd' ∧ hd.Later hd') ∧
    I q.session.scheduler q.agenda) ha (fun _ => id) ?_ ?_ ?_).imp_right And.right
  · rcases run.before.turn ha with ⟨hc, -⟩ | ⟨new, hn, turn, -⟩
    · exact .inl hc
    · have next : Course ([] ++ p :: earlier) ({ p with agenda := rest }.run (.stop hd.slot)) := .step run.before ha
      have hstart := start (knows run.before ha (owned run.before ha held (.refl hd)))
      rw [hn]
      exact .inr ⟨FateAux.handler_later next held, of_stop turn hstart⟩
  · intro past q c run hq hi idle
    obtain ⟨hd', hi⟩ := hi.resolve_left idle.not_crashed
    rw [idle.1] at hi
    exact .inr ⟨hd', ask c hi⟩
  · intro past q t tasks run hq hi hx
    obtain ⟨⟨hd', held', later'⟩, hi⟩ := hi.resolve_left (not_crashed_of_agenda hx)
    have own := owned run hx held' later'
    rw [hx] at hi
    rcases run.page hx with hc | ⟨new, hn, turn, page⟩
    · exact .inl hc
    have next : Course ([] ++ q :: past) ({ q with agenda := tasks }.run t) := .step run hx
    obtain ⟨hd'', held'', later''⟩ := FateAux.handler_later next held'
    rw [hn]
    refine .inr ⟨⟨hd'', held'', later'.trans later''⟩,
      step hq hx hi (knows run hx own) turn page ({ q with agenda := tasks }.run_shift t) ?_⟩
    intro w delay hi
    obtain ⟨i, hr⟩ := requests_of_install own held' hx hn turn hi
    exact unasked q hq i hr

/-- A handler's slot that is stopped stays vacant until a parse is requested. -/
theorem vacant (run : Course (later ++ p :: earlier) m) (ha : p.agenda = .stop hd.slot :: rest)
    (held : p.session.handlers[h]? = some hd) (alone : ∀ x ∈ rest, x.settles hd.slot = false) (fresh : ¬ p.Recalls hd.slot)
    (unasked : ∀ q ∈ later, ∀ i, ¬ q.Requests h i) : m.Crashed ∨ Vacant hd.slot m.session.scheduler m.agenda := by
  have hnot := not_crashed_of_agenda ha
  refine run.since_stop ha held unasked (fun hk => ?_) ?_ ?_
  · exact vacant_stop ha hk ((FinalityAux.dated run.before).resolve_left hnot)
      ((run.before.quarters held).resolve_left hnot).accounted alone fresh
  · exact fun c hv => ⟨hv.rests, hv.empty, by simp [Task.fills], by simp⟩
  · exact fun _ _ hv hk turn _ shift hi => vacant_step hv hk turn shift hi

/-- In any case it is free and off the list of pending ones until a parse is requested or the slot is started. -/
theorem rests (run : Course (later ++ p :: earlier) m) (ha : p.agenda = .stop hd.slot :: rest)
    (held : p.session.handlers[h]? = some hd) (alone : ∀ x ∈ rest, x.settles hd.slot = false)
    (unasked : ∀ q ∈ later, ∀ i, ¬ q.Requests h i) (unarmed : ∀ q ∈ later, ¬ q.Arms hd.slot) :
    m.Crashed ∨ m.session.scheduler.Rests hd.slot := by
  have quarters := (run.before.quarters held).resolve_left (not_crashed_of_agenda ha)
  refine (run.since_stop (I := fun s agenda => s.Rests hd.slot ∧ ∀ x ∈ agenda, x.seats hd.slot = false) ha held unasked
    (fun hk => ?_) ?_ ?_).imp_right And.left
  · exact ⟨rests_stop hk (ha ▸ quarters.accounted) alone, fun x hx => seats_of_settles (unsettling_discards alone x hx)⟩
  · exact fun c ⟨hr, _⟩ => ⟨hr, by simp [Task.seats]⟩
  · intro q t tasks new s' hq hx ⟨hr, unseated⟩ hk turn _ shift hi
    obtain ⟨ht, htasks⟩ := List.forall_mem_cons.1 unseated
    have unarmed' : ∀ c asker, t = .call c asker → q.session.Arms hd.slot c →
        (q.session.scheduler.slot hd.slot).worker = none := by
      rintro c asker rfl harms
      exact absurd ⟨c, asker, tasks, hx, harms⟩ (unarmed q hq)
    refine ⟨rests_shift hr hk ht unarmed' shift, fun x hx => ?_⟩
    rcases List.mem_append.1 hx with hx | hx
    · exact unseated_turn ht hi turn x hx
    · exact htasks x hx

/-- A handler's slot that is stopped stays unused until a parse is requested. If it recalls a worker, it is at rest all the same
until it is started. -/
theorem stopped (run : Course (later ++ p :: earlier) m) (ha : p.agenda = .stop hd.slot :: rest)
    (held : p.session.handlers[h]? = some hd) (alone : ∀ x ∈ rest, x.settles hd.slot = false)
    (unasked : ∀ q ∈ later, ∀ i, ¬ q.Requests h i) :
    m.Crashed ∨ m.session.scheduler.Unused hd.slot ∨
      p.Recalls hd.slot ∧ (m.session.scheduler.Rests hd.slot ∨ ∃ q ∈ later, q.Arms hd.slot) := by
  by_cases hr : p.Recalls hd.slot
  · by_cases armed : ∃ q ∈ later, q.Arms hd.slot
    · exact .inr (.inr ⟨hr, .inr armed⟩)
    · exact (run.rests ha held alone unasked fun q hq harms => armed ⟨q, hq, harms⟩).imp_right fun rests => .inr ⟨hr, .inl rests⟩
  · exact (run.vacant ha held alone hr unasked).imp_right fun hv => .inl ⟨hv.rests, hv.empty⟩

/-- A slot that recalls a worker was freed during its step, by work that code of the host let run. -/
theorem reenters (run : Course earlier p) (hr : p.Recalls k) : ∃ q ∈ earlier, Reenters q.agenda := by
  by_contra hnone
  obtain ⟨free, empty, r, w, delay, hx⟩ := hr
  exact FinalityAux.not_vacated run (fun q hq hre => hnone ⟨q, hq, hre⟩) ⟨free, empty, r, w, _, hx⟩

/-- As long as no error site makes calls, only its complaint comes before the end of a step after which a parse goes on. -/
theorem hushed {past : List Machine} (run : Course past m) (mute : ∀ q ∈ past, ¬ q.session.Speaks) :
    m.Crashed ∨ m.agenda.Pairwise Task.Hushed := by
  induction run with
  | new options => exact .inr .nil
  | ask c _ _ _ => exact .inr (List.pairwise_singleton _ _)
  | step run ha ih =>
    have hi := (ih fun q hq => mute q (.tail _ hq)).resolve_left (not_crashed_of_agenda ha)
    rw [ha] at hi
    rcases run.page ha with hc | ⟨new, hn, turn, page⟩
    · exact .inl hc
    rw [hn]
    exact .inr (hushed_step (mute _ (.head _)) hi hn turn page)

/-- The slot of a handler that recalls a worker while code of the host runs does so because an error site made calls. -/
theorem speaks (run : Course earlier p) (held : p.session.handlers[h]? = some hd) {t : Task} (ha : p.agenda = t :: rest)
    (hround : t.isRound = false) (hsilent : t.isSilent = false) (hcomplain : ∀ d source message, t ≠ .complain d source message)
    (hr : p.Recalls hd.slot) : ∃ q ∈ earlier, q.session.Speaks := by
  by_contra hnone
  have hnot := not_crashed_of_agenda ha
  have hi := (run.hushed fun q hq hs => hnone ⟨q, hq, hs⟩).resolve_left hnot
  obtain ⟨-, -, r, w, delay, hx⟩ := hr
  have hw := ((run.quarters held).resolve_left hnot).lodgers w (.inr ⟨_, hx, if_pos rfl⟩)
  rw [ha] at hx hi
  rcases List.mem_cons.1 hx with rfl | hx
  · cases hround
  · obtain ⟨i, job, rfl, -⟩ := hw
    rcases (List.pairwise_cons.1 hi).1 _ hx rfl with hs | ⟨d, source, message, rfl⟩
    · rw [hsilent] at hs
      cases hs
    · exact hcomplain d source message rfl

end Course

end Machine

end LiveHighlight
