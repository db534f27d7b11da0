import LiveHighlight.Proofs.Session.Fairness
import LiveHighlight.Proofs.Session.Reentry
import LiveHighlight.Proofs.Session.Vacancy

/-!
# Starting a place

A slot that is started gets an appointment if it holds a worker, or if its worker takes a step and the slot was given no other
phase since the step began. So a start is refused where the slot is free, and also where the worker that is under way has paused
its slot or had it armed already (`Course.refused_iff`): until the step is over, nothing resumes it (`Course.exists_refused`).
Apart from that a slot in use always has a worker to resume: it holds one, or one is under way that has its place there
(`Course.used`).
-/

namespace LiveHighlight

/-- Whether a call starts a slot, after which delay, and how it is answered, given whether there was a worker to start. -/
inductive Session.Starts (s : Session) (k : Nat) : Call → Nat → (Bool → Reply) → Prop where
  | place {name : String} {delay : Nat} (hn : s.names.places.get? name = some k) :
      Starts s k (.onPlace name (.start delay)) delay .flag
  | play {name : String} {command : Nat} (hn : s.names.places.get? name = some k)
      (hc : WorkCommand.ofId? command = some .play) : Starts s k (.onPlace name (.execute command)) 0 fun _ => .flag true
  | playHandler {name : String} {id command : Nat} {h : Handler} (hn : s.names.handlers.get? name = some id)
      (hh : s.handlers[id]? = some h) (hs : h.slot = k) (hc : WorkCommand.ofId? command = some .play) :
      Starts s k (.onHandler name (.execute command)) 0 fun _ => .flag true

/-- Whether a worker takes a step that has its place at a slot. -/
def Office.Lends (o : Office) (agenda : List Task) (k : Nat) : Prop :=
  ∃ r w outcome, .conclude r k (o.scheduler.slot k).generation w outcome ∈ agenda

/-- Whether a slot in use holds a worker, is barred, or lends its worker for a step. -/
def Office.Uses (o : Office) (agenda : List Task) (k : Nat) : Prop :=
  (o.scheduler.slot k).phase ≠ .free → (o.scheduler.slot k).worker = none →
    (o.scheduler.slot k).barred = true ∨ o.Lends agenda k

namespace StartingAux

variable {o o' : Office} {t : Task} {rest new : List Task} {k : Nat}

/-- What a turn leaves as it is, apart from phases that it leaves in use, is used as before. -/
theorem uses_frame (hu : o.Uses (t :: rest) k) (hw : (o'.scheduler.slot k).worker = (o.scheduler.slot k).worker)
    (hb : (o'.scheduler.slot k).barred = (o.scheduler.slot k).barred)
    (hg : (o'.scheduler.slot k).generation = (o.scheduler.slot k).generation)
    (hp : (o'.scheduler.slot k).phase ≠ .free → (o.scheduler.slot k).worker = none → (o.scheduler.slot k).phase ≠ .free)
    (ht : ∀ r w outcome, t ≠ .conclude r k (o.scheduler.slot k).generation w outcome) : o'.Uses (new ++ rest) k := by
  intro hf hnone
  rw [hw] at hnone
  rcases hu (hp hf hnone) hnone with hbarred | ⟨r, w, outcome, hx⟩
  · exact .inl (hb.trans hbarred)
  · rcases List.mem_cons.1 hx with rfl | hx
    · exact absurd rfl (ht r w outcome)
    · exact .inr ⟨r, w, outcome, List.mem_append_right _ (by rw [hg]; exact hx)⟩

/-- What leaves a slot as it is leaves it used as before. -/
theorem uses_away (hu : o.Uses (t :: rest) k) (hv : o'.scheduler.view k = o.scheduler.view k)
    (ht : ∀ r w outcome, t ≠ .conclude r k (o.scheduler.slot k).generation w outcome) : o'.Uses (new ++ rest) k := by
  have hs : o'.scheduler.slot k = o.scheduler.slot k := congrArg Prod.fst hv
  exact uses_frame hu (by rw [hs]) (by rw [hs]) (by rw [hs]) (by rw [hs]; exact fun hf _ => hf) ht

theorem uses_of_free (hf : (o'.scheduler.slot k).phase = .free) : o'.Uses (new ++ rest) k := fun hp => absurd hf hp

theorem uses_of_worker {w : Worker} (hw : (o'.scheduler.slot k).worker = some w) : o'.Uses (new ++ rest) k := by
  intro _ hnone
  rw [hw] at hnone
  cases hnone

theorem uses_of_barred (hb : (o'.scheduler.slot k).barred = true) : o'.Uses (new ++ rest) k := fun _ _ => .inl hb

/-- The step that ends leaves its slot free, held by its worker, or barred for it. -/
theorem uses_conclude {r : Round} {slot g now : Nat} {w : Worker} {outcome : Outcome} (hkn : o.scheduler.Knows slot)
    (hu : o.Uses (.conclude r slot g w outcome :: rest) k) :
    Office.Uses { o with scheduler := (o.scheduler.conclude slot g w outcome now).1 } (new ++ rest) k := by
  rcases eq_or_ne k slot with rfl | hne
  · by_cases hg : (o.scheduler.slot k).generation = g
    · subst hg
      rcases outcome with fault | ⟨delay⟩ | -
      · have hv := congrArg (fun v => v.1.phase) (Scheduler.view_conclude_error hkn w fault now)
        exact uses_of_free hv
      · cases hw : (o.scheduler.slot k).worker with
        | none =>
          have hv := congrArg (fun v => v.1.worker) (Scheduler.view_conclude_again hkn w delay now hw)
          exact uses_of_worker hv
        | some other =>
          have hv := congrArg (fun v => v.1.barred) (Scheduler.view_conclude_over hkn w delay now hw)
          exact uses_of_barred hv
      · have hv := congrArg (fun v => v.1.phase) (Scheduler.view_conclude_finished hkn w now)
        exact uses_of_free hv
    · -- a worker that has lost its place is none that the slot lends
      refine uses_away hu (Scheduler.view_conclude_stale hg w outcome now) ?_
      rintro r' w' outcome' he
      cases he
      exact hg rfl
  · refine uses_away hu (Scheduler.view_conclude_ne hne g w outcome now) ?_
    rintro r' w' outcome' he
    cases he
    exact hne rfl

/-- A turn leaves every slot in use with a worker. -/
theorem uses_turn (hkn : o.Known (t :: rest)) (hu : o.Uses (t :: rest) k) (h : Turn o t o' new) : o'.Uses (new ++ rest) k := by
  have known {slot : Nat} (hs : t.slot? = some slot) : o.scheduler.Knows slot := hkn.tasks t (.head _) slot hs
  cases h with
  | quiet hq =>
    refine uses_away hu rfl ?_
    rintro r w outcome rfl
    cases hq
  | @openPlace label | @attach _ _ _ label =>
    have hv := Scheduler.view_add (s := o.scheduler) (k := k) label
    by_cases hk : k = o.scheduler.slots.length
    · rw [if_pos hk] at hv
      exact uses_of_free (congrArg (fun v => v.1.phase) hv)
    · exact uses_away hu (hv.trans (if_neg hk)) (by simp)
  | @start _ _ slot at_ hs =>
    rcases eq_or_ne k slot with rfl | hne
    · by_cases hc : (o.scheduler.slot k).worker = none ∧ (o.scheduler.slot k).phase ≠ .running
      · exact uses_away hu ((Scheduler.view_start (hkn.refers _ hs) at_).trans (if_pos hc)) (by simp)
      · have hv := congrArg (fun v => v.1.barred) (Scheduler.view_start (hkn.refers _ hs) at_)
        rw [if_neg hc] at hv
        refine uses_frame hu (by simp) hv (by simp) (fun _ hnone hf => hc ⟨hnone, ?_⟩) (by simp)
        simp [hf]
    · exact uses_away hu (Scheduler.view_start_ne hne _) (by simp)
  | @pause _ _ slot hs =>
    rcases eq_or_ne k slot with rfl | hne
    · by_cases hf : (o.scheduler.slot k).phase = .free
      · exact uses_away hu ((Scheduler.view_pause (hkn.refers _ hs)).trans (if_pos hf)) (by simp)
      · have hv := congrArg (fun v => v.1.barred) (Scheduler.view_pause (hkn.refers _ hs))
        rw [if_neg hf] at hv
        exact uses_frame hu (by simp) hv (by simp) (fun _ _ => hf) (by simp)
    · exact uses_away hu (Scheduler.view_pause_ne hne) (by simp)
  | @stop slot =>
    rcases eq_or_ne k slot with rfl | hne
    · by_cases hc : (o.scheduler.slot k).phase = .free ∧ (o.scheduler.slot k).worker = none
      · exact uses_away hu ((Scheduler.view_stop (known rfl)).trans (if_pos hc)) (by simp)
      · have hv := congrArg (fun v => v.1.phase) (Scheduler.view_stop (known rfl))
        rw [if_neg hc] at hv
        exact uses_of_free hv
    · exact uses_away hu (Scheduler.view_stop_ne hne) (by simp)
  | @install slot _ at_ w | @seat slot at_ w =>
    rcases eq_or_ne k slot with rfl | hne
    · have hv := congrArg (fun v => v.1.worker) (Scheduler.view_install (known rfl) w at_)
      exact uses_of_worker hv
    · exact uses_away hu (Scheduler.view_install_ne hne w at_) (by simp)
  | @evict slot =>
    rcases eq_or_ne k slot with rfl | hne
    · have hv := congrArg (fun v => v.1.barred) (Scheduler.view_evict (known rfl))
      exact uses_of_barred hv
    · exact uses_away hu (Scheduler.view_evict_ne hne) (by simp)
  | @pass r _ slot hc =>
    by_cases hk : o.scheduler.Knows slot
    · rcases eq_or_ne k slot with rfl | hne
      · by_cases hd : (o.scheduler.slot k).isDue r.now = true
        · cases hw : (o.scheduler.slot k).worker with
          | none =>
            have hv := congrArg (fun v => v.1.phase) (Scheduler.view_claim hk r.now)
            rw [if_pos hd, if_pos hw] at hv
            exact uses_of_free hv
          | some w => exact absurd (Scheduler.claim_of_due hd hw) (hc _ _)
        · exact uses_away hu ((Scheduler.view_claim hk r.now).trans (if_neg hd)) (by simp)
      · exact uses_away hu (Scheduler.view_claim_ne hne _) (by simp)
    · rw [Scheduler.claim_of_not_knows hk]
      exact uses_away hu rfl (by simp)
  | @work r r' slot g w w' outcome new hc =>
    obtain ⟨hd, hw, hg⟩ := Scheduler.claim_step hc
    rcases eq_or_ne k slot with rfl | hne
    · refine fun _ _ => .inr ⟨r', w', outcome, ?_⟩
      rw [Scheduler.generation_claim, hg]
      simp
    · exact uses_away hu (Scheduler.view_claim_ne hne _) (by simp)
  | conclude => exact uses_conclude (known rfl) hu
  | @closeReturning r slot c w =>
    rcases eq_or_ne k slot with rfl | hne
    · have hv := congrArg (fun v => v.1.worker) (Scheduler.view_restore (known rfl) w)
      exact uses_of_worker hv
    · exact uses_away hu (Scheduler.view_restore_ne hne w) (by simp)
  | closeFinished => exact uses_frame hu rfl rfl rfl (fun hf _ => hf) (by simp)
  | _ => exact uses_away hu rfl (by simp)

end StartingAux

open StartingAux

/-- Along every course, a slot in use holds a worker, lends it for a step, or is barred while another one goes in. -/
theorem Machine.Course.used {past : List Machine} {m : Machine} (run : Course past m) :
    m.Crashed ∨ ∀ k, m.session.office.Uses m.agenda k := by
  have hi := run.invariant (P := fun _ _ => True) (I := fun o agenda => o.Known agenda ∧ ∀ k, o.Uses agenda k)
    (fun _ _ => trivial) (fun options => ⟨Office.known_new options, fun k hf => absurd rfl hf⟩)
    (fun c hi => ⟨⟨hi.1.refers, by simp [Task.slot?], hi.1.pending⟩, fun k hf hw => ?_⟩)
    (fun _ hi h => ⟨h.known hi.1, fun k => uses_turn hi.1 (hi.2 k) h⟩)
  · exact hi.imp_right And.right
  · rcases hi.2 k hf hw with hb | ⟨r, w, outcome, hx⟩
    · exact .inl hb
    · cases hx

/-! ## Steps under way -/

/-- What is true of a slot as long as no code that the host lent lets work run, whatever the ends of workers call: it is empty
while it is free or lends its worker, and a worker that is to be put in finds no step under way whose worker has its place
there. -/
structure Proper (k : Nat) (s : Scheduler Worker) (agenda : List Task) : Prop where
  free : (s.slot k).phase = .free → (s.slot k).worker = none
  lent : ∀ r w outcome, .conclude r k (s.slot k).generation w outcome ∈ agenda → (s.slot k).worker = none
  coming : ∀ x ∈ agenda, x.seats k = true → agenda.head? = some (.stop k) ∨
    ∀ r w outcome, .conclude r k (s.slot k).generation w outcome ∉ agenda
  returning : ∀ r c, .close r k c ∈ agenda → c.returning = none

namespace StartingAux

open FinalityAux

variable {s s' : Session} {t : Task} {rest new : List Task} {k : Nat}

/-- A step under way whose worker has its place was begun just now, or was under way before. -/
theorem conclude_step (ho : Orderly (t :: rest)) (hd : Dated s.scheduler (t :: rest)) (shift : Shift s t s'.scheduler)
    (beat : ∀ x ∈ new, x.isRound = true → Beat s t x) {r : Round} {w : Worker} {outcome : Outcome}
    (hx : .conclude r k (s'.scheduler.slot k).generation w outcome ∈ new ++ rest) :
    (∃ r' due v g, t = .round r' ∧ r'.due = k :: due ∧ (s.scheduler.claim k r'.now).2 = .step v g) ∨
      t.isRound = false ∧ (s'.scheduler.slot k).generation = (s.scheduler.slot k).generation ∧
        .conclude r k (s.scheduler.slot k).generation w outcome ∈ rest := by
  rcases List.mem_append.1 hx with hx | hx
  · generalize (s'.scheduler.slot k).generation = g at hx
    cases beat _ hx rfl with
    | stepped hr hc => exact .inl ⟨_, _, _, _, rfl, hr, hc⟩
  · have hg := Nat.le_antisymm (hd r k _ w outcome (.tail _ hx)) (shift.generation_le k)
    rw [hg] at hx
    refine .inr ⟨?_, hg, hx⟩
    cases ht : t.isRound with
    | false => rfl
    | true =>
      rw [ho.alone ht] at hx
      cases hx

/-- A task that puts a worker in is left behind the one that stops its slot, or in place of another such task. -/
theorem seats_new {o o' : Office} (h : Turn o t o' new) {x : Task} (hx : x ∈ new) (hf : x.seats k = true) :
    new.head? = some (.stop k) ∨ ∃ w delay, t = .install k w delay := by
  have stopped {found : Option Nat} {slot slot' : Nat} {behind : List Task} (h : found = some slot) (h' : found = some slot')
      (hk : slot' = k) : (.stop slot :: behind).head? = some (.stop k) ∨ ∃ w delay, t = .install k w delay := by
    rw [Option.some.inj (h.symm.trans h'), hk]
    exact .inl rfl
  cases h.left hx with
  | light hx =>
    cases x with
    | install | seat => cases hx
    | _ => cases hf
  | employed hs =>
    cases h with
    | quiet _ hn => cases hn _ hx
    | employ hs' => exact stopped hs' hs (of_decide_eq_true hf)
    | _ => cases hx
  | engaged hs =>
    cases h with
    | quiet _ hn => cases hn _ hx
    | engage hs' => exact stopped hs' hs (of_decide_eq_true hf)
    | _ => cases hx
  | requested hs =>
    cases h with
    | quiet _ hn => cases hn _ hx
    | request hs' => exact stopped hs' hs (of_decide_eq_true hf)
  | seated =>
    obtain rfl : _ = k := of_decide_eq_true hf
    exact .inr ⟨_, _, rfl⟩
  | _ => cases hf

/-- A stop of a slot in use counts it on. -/
theorem generation_stopped {o o' : Office} (hk : o.scheduler.Knows k) (hu : (o.scheduler.slot k).phase ≠ .free)
    (h : Turn o (.stop k) o' new) : (o'.scheduler.slot k).generation = (o.scheduler.slot k).generation + 1 := by
  cases h with
  | quiet hq => cases hq
  | stop =>
    have hv := congrArg (fun v => v.1.generation) (Scheduler.view_stop hk)
    rw [if_neg fun h => hu h.1] at hv
    exact hv

/-- What a task does to a slot that is free afterwards leaves it empty. -/
theorem free_step (hp : Proper k s.scheduler (t :: rest)) (hocc : Occupied s.scheduler (t :: rest)) (hk : s.scheduler.Knows k)
    (shift : Shift s t s'.scheduler) (hf : (s'.scheduler.slot k).phase = .free) : (s'.scheduler.slot k).worker = none := by
  have hat := shift.shiftAt hk
  generalize hv : s'.scheduler.view k = v at hat
  generalize s'.scheduler.nextSeq = next at hat
  rw [show s'.scheduler.slot k = v.1 from congrArg Prod.fst hv] at hf ⊢
  cases hat with
  | same | delist => exact hp.free hf
  | stop | evict | lend | takeOver => rfl
  | vacate _ _ hw => exact hw
  | again =>
    have huse := hocc _ k _ _ (.head _)
    dsimp only at hf
    split at hf
    · cases hf
    · exact absurd hf huse
  | finish | fail => exact hp.lent _ _ _ (.head _)
  | restore hc =>
    rw [hp.returning _ _ (.head _)] at hc
    cases hc
  | start | pause | install | seat => cases hf

/-- What a task does to a slot whose worker is under way leaves it empty. -/
theorem lent_step (hp : Proper k s.scheduler (t :: rest)) (hk : s.scheduler.Knows k) (ht : t.isRound = false)
    (shift : Shift s t s'.scheduler) {r : Round} {w : Worker} {outcome : Outcome}
    (hx : .conclude r k (s.scheduler.slot k).generation w outcome ∈ rest) : (s'.scheduler.slot k).worker = none := by
  have hw := hp.lent r w outcome (.tail _ hx)
  have hfills : t.seats k = true → t = .stop k := by
    intro hf
    rcases hp.coming t (.head _) hf with hs | hnone
    · exact Option.some.inj hs
    · exact absurd (List.mem_cons_of_mem _ hx) (hnone r w outcome)
  have hat := shift.shiftAt hk
  generalize hv : s'.scheduler.view k = v at hat
  generalize s'.scheduler.nextSeq = next at hat
  rw [show s'.scheduler.slot k = v.1 from congrArg Prod.fst hv]
  cases hat with
  | same | start | pause => exact hw
  | stop | evict => rfl
  | install | seat => cases hfills (decide_eq_true rfl)
  | _ => cases ht

/-- A task that puts a worker in comes behind the one that stops its slot, or finds no step under way there. -/
theorem coming_step (hkn : s.office.Known (t :: rest)) (ho : Orderly (t :: rest)) (hd : Dated s.scheduler (t :: rest))
    (hocc : Occupied s.scheduler (t :: rest)) (hp : Proper k s.scheduler (t :: rest)) (turn : Turn s.office t s'.office new)
    (shift : Shift s t s'.scheduler) (beat : ∀ x ∈ new, x.isRound = true → Beat s t x) {x : Task} (hx : x ∈ new ++ rest)
    (hf : x.seats k = true) : (new ++ rest).head? = some (.stop k) ∨
      ∀ r w outcome, .conclude r k (s'.scheduler.slot k).generation w outcome ∉ new ++ rest := by
  -- without a step under way before there is none afterwards
  have kept (hx : x ∈ t :: rest ∨ ∃ w delay, t = .install k w delay)
      (hnone : ∀ r w outcome, .conclude r k (s.scheduler.slot k).generation w outcome ∉ t :: rest) r w outcome :
      .conclude r k (s'.scheduler.slot k).generation w outcome ∉ new ++ rest := by
    intro hc
    rcases conclude_step ho hd shift beat hc with ⟨r', due, v, g, rfl, -⟩ | ⟨-, -, hc⟩
    · rcases hx with hx | ⟨w, delay, hx⟩
      · rw [ho.alone rfl] at hx
        obtain rfl := List.mem_singleton.1 hx
        cases hf
      · cases hx
    · exact hnone r w outcome (.tail _ hc)
  rcases List.mem_append.1 hx with hx | hx
  · rcases seats_new turn hx hf with hs | ⟨w, delay, rfl⟩
    · exact .inl (by rw [List.head?_append, hs, Option.some_or])
    · rcases hp.coming _ (.head _) (decide_eq_true rfl) with hs | hnone
      · cases hs
      · exact .inr (kept (.inr ⟨w, delay, rfl⟩) hnone)
  · rcases hp.coming x (.tail _ hx) hf with hs | hnone
    · -- the stop leaves every step behind that was under way there
      obtain rfl := Option.some.inj hs
      refine .inr fun r w outcome hc => ?_
      rcases conclude_step ho hd shift beat hc with ⟨r', due, v, g, he, -⟩ | ⟨-, hg, hc⟩
      · cases he
      · have hknown : s.scheduler.Knows k := hkn.tasks _ (.head _) k rfl
        have huse := hocc r k w outcome (.tail _ hc)
        exact Nat.succ_ne_self _ ((generation_stopped hknown huse turn).symm.trans hg)
    · exact .inr (kept (.inl (.tail _ hx)) hnone)

/-- A step that begins leaves its slot empty. -/
theorem worker_of_begun {o o' : Office} (h : Turn o t o' new) {r : Round} {g : Nat} {w : Worker} {outcome : Outcome}
    (hx : .conclude r k g w outcome ∈ new) : (o'.scheduler.slot k).worker = none := by
  cases h.left hx with
  | light hx => cases hx
  | @stepped r₀ =>
    cases h with
    | quiet hq => cases hq
    | endRound _ hn =>
      rcases hn with rfl | ⟨d, rfl⟩
      · cases hx
      · cases List.mem_singleton.1 hx
    | pass => cases List.mem_singleton.1 hx
    | work hc _ hn =>
      rcases List.mem_append.1 hx with hx | hx
      · cases hn _ hx
      · cases List.mem_singleton.1 hx
        obtain ⟨hd, hw, -⟩ := Scheduler.claim_step hc
        have hv := congrArg (fun v => v.1.worker) (Scheduler.view_claim (Scheduler.knows_of_worker hw) r₀.now)
        rwa [if_pos hd, if_neg (by simp [hw])] at hv

/-- A slot that was not there before is as it is when it is added. -/
theorem slot_of_added {s : Session} {s' : Scheduler Worker} (shift : Shift s t s') (hk : ¬ s.scheduler.Knows k) :
    ∃ label, s'.slot k = .fresh label := by
  have absent (h : ¬ s'.Knows k) : ∃ label, s'.slot k = .fresh label := ⟨"", Scheduler.slot_of_not_knows h⟩
  cases shift with
  | add label =>
    have hv := congrArg Prod.fst (Scheduler.view_add (s := s.scheduler) (k := k) label)
    split at hv
    · exact ⟨label, hv⟩
    · exact ⟨"", hv.trans (Scheduler.slot_of_not_knows hk)⟩
  | _ => exact absent (by simpa [Scheduler.Knows] using hk)

/-- A task keeps a slot proper. -/
theorem proper_step (hkn : s.office.Known (t :: rest)) (ho : Orderly (t :: rest)) (hd : Dated s.scheduler (t :: rest))
    (hocc : Occupied s.scheduler (t :: rest)) (hp : Proper k s.scheduler (t :: rest)) (turn : Turn s.office t s'.office new)
    (shift : Shift s t s'.scheduler) (beat : ∀ x ∈ new, x.isRound = true → Beat s t x) :
    Proper k s'.scheduler (new ++ rest) where
  free hf := by
    by_cases hk : s.scheduler.Knows k
    · exact free_step hp hocc hk shift hf
    · obtain ⟨label, hs⟩ := slot_of_added shift hk
      rw [hs]
      rfl
  lent r w outcome hx := by
    rcases List.mem_append.1 hx with hnew | hrest
    · exact worker_of_begun turn hnew
    · rcases conclude_step ho hd shift beat hx with ⟨r', due, v, g, rfl, -⟩ | ⟨ht, -, hx⟩
      · rw [ho.alone rfl] at hrest
        cases hrest
      · exact lent_step hp (hkn.tasks _ (.tail _ hx) k rfl) ht shift hx
  coming x hx hf := coming_step hkn ho hd hocc hp turn shift beat hx hf
  returning r c hx := by
    rcases List.mem_append.1 hx with hx | hx
    · cases beat _ hx rfl with
      | @concluded _ _ g w outcome =>
        by_cases hg : (s.scheduler.slot k).generation = g
        · subst hg
          have hw := hp.lent _ _ _ (.head _)
          rcases outcome with fault | ⟨delay⟩ | - <;> simp [Scheduler.conclude, hw]
        · simp [Scheduler.conclude, hg]
    · exact hp.returning r c (.tail _ hx)

end StartingAux

/-- As long as no code that the host lent lets work run, every slot is proper. -/
theorem Machine.Course.proper {past : List Machine} {m : Machine} (run : Course past m) (calm : ∀ p ∈ past, ¬ Reenters p.agenda) :
    m.Crashed ∨ Orderly m.agenda ∧ ∀ k, Proper k m.session.scheduler m.agenda := by
  induction run with
  | new options => exact .inr ⟨orderly_nil, fun k => ⟨fun _ => rfl, by simp, by simp, by simp⟩⟩
  | ask c _ idle ih =>
    have hi := (ih fun q hq => calm q (.tail _ hq)).resolve_left idle.not_crashed
    refine .inr ⟨orderly_call c, fun k => ⟨(hi.2 k).free, ?_, ?_, ?_⟩⟩ <;> simp [Machine.ask, Task.seats]
  | step run ha ih =>
    have hnot := not_crashed_of_agenda ha
    obtain ⟨ho, hp⟩ := (ih fun q hq => calm q (.tail _ hq)).resolve_left hnot
    have hv (k : Nat) := FinalityAux.not_vacated (k := k) run fun q hq => calm q (.tail _ hq)
    have hkn := run.known.resolve_left hnot
    have hd := (FinalityAux.dated run).resolve_left hnot
    have hcalm := calm _ (.head _)
    have hocc : FinalityAux.Occupied _ _ := fun r k w outcome hx hf => hv k ⟨hf, (hp k).lent r w outcome hx, r, w, outcome, hx⟩
    rw [ha] at ho hp hkn hd hcalm hocc
    rcases run.advance ha with hc | ⟨new, hn, turn, shift, beat⟩
    · exact .inl hc
    · rw [hn]
      exact .inr ⟨turn.orderly ho hcalm, fun k => proper_step hkn ho hd hocc (hp k) turn shift beat⟩

namespace StartingAux

variable {m : Machine} {k : Nat} {c : Call} {delay : Nat} {reply : Bool → Reply}

theorem start_refused {s : Scheduler Worker} {at_ : Nat} :
    (s.start k at_).2 = false ↔ (s.slot k).worker = none ∧ (s.slot k).phase ≠ .running := by
  simp only [Scheduler.start, Option.isNone_iff_eq_none]
  split <;> simp_all

/-- What a call does that starts a slot. -/
theorem run_starts (hs : m.session.Starts k c delay reply) (asker : Asker) :
    m.run (.call c asker) = m.onSlot k
      ((m.schedule (m.session.scheduler.start k (m.session.now + delay)).1).answer asker
        (reply (m.session.scheduler.start k (m.session.now + delay)).2)) := by
  cases hs with
  | place hn => simp [Machine.run, Machine.perform, Machine.find, hn, Machine.onPlace, Machine.start]
  | play hn hc => simp [Machine.run, Machine.perform, Machine.find, hn, Machine.onPlace, Machine.execute, hc, Machine.start]
  | playHandler hn hh hs hc =>
    simp [Machine.run, Machine.perform, Machine.find, hn, hh, Machine.onHandler, Machine.execute, hc, hs, Machine.start]

theorem refers_of_starts (hs : m.session.Starts k c delay reply) : m.session.office.Refers k := by
  cases hs with
  | place hn | play hn => exact .inl ⟨_, hn⟩
  | playHandler _ hh hs => exact .inr (List.mem_map.2 ⟨_, List.mem_of_getElem? hh, hs⟩)

end StartingAux

namespace Machine

namespace Course

variable {past : List Machine} {m : Machine}

/-- A call that starts a slot crashes the machine if the slot is barred. Otherwise it is refused exactly if the slot holds no worker
and either is free, or lends its worker for a step and was given another phase since the step began; nothing changes then. If it
is not refused, the slot waits for its appointment, armed last of all, and nothing else changes. As long as no code that the host
lent lets work run, a slot that is free or lends its worker holds none. -/
theorem refused_iff (run : Course past m) {c : Call} {asker : Asker} {rest : List Task} {k delay : Nat} {reply : Bool → Reply}
    (ha : m.agenda = .call c asker :: rest) (hs : m.session.Starts k c delay reply) :
    ((m.session.scheduler.slot k).barred = true ∧ ({ m with agenda := rest }.run (.call c asker)).Crashed) ∨
      ∃ (sch : Scheduler Worker) (began : Bool),
        { m with agenda := rest }.run (.call c asker) = ({ m with agenda := rest }.schedule sch).answer asker (reply began) ∧
        (began = false ↔ (m.session.scheduler.slot k).worker = none ∧ ((m.session.scheduler.slot k).phase = .free ∨
          (m.session.scheduler.slot k).phase ≠ .running ∧ m.session.office.Lends m.agenda k)) ∧
        ((∀ p ∈ past, ¬ Reenters p.agenda) → (m.session.scheduler.slot k).phase = .free ∨ m.session.office.Lends m.agenda k →
          (m.session.scheduler.slot k).worker = none) ∧
        (began = false → sch = m.session.scheduler) ∧
        (began = true → k ∈ sch.pending ∧ (∀ j ≠ k, sch.view j = m.session.scheduler.view j) ∧
          sch.slot k = { m.session.scheduler.slot k with
            phase := .queued (m.session.now + delay), seq := m.session.scheduler.nextSeq }) := by
  have hnot := not_crashed_of_agenda ha
  have hknown : m.session.scheduler.Knows k := (run.known.resolve_left hnot).refers k (refers_of_starts hs)
  rw [run_starts (m := { m with agenda := rest }) hs asker, onSlot]
  by_cases hb : (m.session.scheduler.slot k).barred = true
  · exact .inl ⟨hb, by rw [if_pos hb]; exact ⟨rfl, rfl⟩⟩
  rw [if_neg hb]
  refine .inr ⟨_, _, rfl, ?_, ?_, ?_, ?_⟩
  · rw [start_refused]
    refine and_congr_right fun hw => ⟨fun hr => ?_, ?_⟩
    · refine or_iff_not_imp_left.2 fun hf => ⟨hr, ?_⟩
      exact ((run.used.resolve_left hnot) k hf hw).resolve_left hb
    · rintro (hf | ⟨hr, -⟩)
      · simp [hf]
      · exact hr
  · rintro calm (hf | ⟨r, w, outcome, hx⟩)
    · exact (((run.proper calm).resolve_left hnot).2 k).free hf
    · exact (((run.proper calm).resolve_left hnot).2 k).lent r w outcome hx
  · intro hrefused
    unfold Scheduler.start
    rw [if_pos (by simpa using start_refused.1 hrefused)]
  · intro hbegan
    have hv := Scheduler.view_start hknown (m.session.now + delay)
    rw [if_neg fun hc => Bool.false_ne_true ((start_refused.2 hc).symm.trans hbegan)] at hv
    have hcount := congrArg Prod.snd hv
    refine ⟨List.count_pos_iff.1 (Nat.pos_of_ne_zero fun h => ?_), fun j hj => Scheduler.view_start_ne hj _, congrArg Prod.fst hv⟩
    exact ReentryAux.listed_ne_zero _ (hcount.symm.trans h)

end Course

end Machine

namespace StartingAux

/-- Where the host starts a place whose worker has paused it in its step. -/
def resuming : Machine :=
  let paused := (Machine.ask (FinalityAux.waiting (FinalityAux.calling [.onPlace "p" .pause])).session (.drive .tick 1)).settle 60
  Machine.ask paused.session (.onPlace "p" (.start 7))

/-- Where a worker that has paused its place in its step starts it again. -/
def relenting : Machine :=
  let calls : List Call := [.onPlace "p" .pause, .onPlace "p" (.start 0)]
  (Machine.ask (FinalityAux.waiting (FinalityAux.calling calls)).session (.drive .tick 1)).settle 6

/-- Whether an agenda begins with a worker's call that starts a place at once. -/
def starts : List Task → Bool
  | .call (.onPlace "p" (.start 0)) (.script "start") :: _ => true
  | _ => false

theorem agenda_of_starts {agenda : List Task} (h : starts agenda = true) :
    agenda = .call (.onPlace "p" (.start 0)) (.script "start") :: agenda.tail := by
  unfold starts at h
  split at h
  · rfl
  · cases h

end StartingAux

namespace Machine

namespace Course

/-- A place whose worker has paused it in its step is started after the step. -/
theorem refused_iff_paused : ∃ past, Course past resuming ∧ (resuming.session.scheduler.slot 0).phase = .paused ∧
    ∃ (sch : Scheduler Worker) (began : Bool),
      { resuming with agenda := [] }.run (.call (.onPlace "p" (.start 7)) .host) =
        ({ resuming with agenda := [] }.schedule sch).answer .host (.flag began) ∧
      began = true ∧ (sch.slot 0).phase = .queued 7 := by
  obtain ⟨past, waited⟩ := FinalityAux.course_waiting (FinalityAux.calling [.onPlace "p" .pause])
  have run := ((waited.ask (.drive .tick 1) (by decide +kernel)).settle 60).ask (.onPlace "p" (.start 7)) (by decide +kernel)
  have hs : resuming.session.Starts 0 (.onPlace "p" (.start 7)) 7 .flag := .place (by decide +kernel)
  refine ⟨_, run, by decide +kernel, ?_⟩
  rcases run.refused_iff rfl hs with ⟨hb, -⟩ | ⟨sch, began, he, hiff, -, -, hbegan⟩
  · exact absurd hb (by decide +kernel)
  · have hb : began = true := by
      refine Bool.not_eq_false began ▸ fun h => ?_
      exact absurd (hiff.1 h).1 (by decide +kernel)
    refine ⟨sch, began, he, hb, ?_⟩
    rw [(hbegan hb).2.2]
    decide +kernel

/-- A place is not free, and its worker, which has paused it in its step, is refused when it starts the place again. -/
theorem exists_refused : ∃ past, Course past relenting ∧
    relenting.agenda = .call (.onPlace "p" (.start 0)) (.script "start") :: relenting.agenda.tail ∧
    relenting.session.Starts 0 (.onPlace "p" (.start 0)) 0 .flag ∧
    (relenting.session.scheduler.slot 0).phase = .paused ∧
    relenting.step.session.journal.back? = some (.called "start" (.flag false)) := by
  obtain ⟨past, waited⟩ := FinalityAux.course_waiting (FinalityAux.calling [.onPlace "p" .pause, .onPlace "p" (.start 0)])
  have run := (waited.ask (.drive .tick 1) (by decide +kernel)).settle 6
  exact ⟨_, run, agenda_of_starts (by decide +kernel), .place (by decide +kernel), by decide +kernel, by decide +kernel⟩

end Course

end Machine

end LiveHighlight
