import LiveHighlight.Proofs.Session.Course

/-!
# What a task does to the schedule

`Turn` says which operations of the scheduler a task may perform. `Shift` says in addition on which slot, with which
appointment and at which place of a round it does so (`Machine.run_shift`), and `ShiftAt` what that makes of one slot: what
depends on appointments and generations is read off the slot.
-/

namespace LiveHighlight

/-! ## Operations of the scheduler -/

/-- Whether a command starts or pauses a slot. -/
def WorkCommand.arms (command : Nat) : Bool :=
  match WorkCommand.ofId? command with
  | some .play | some .pause => true
  | _ => false

/-- Whether a call on a place starts or pauses it. -/
def PlaceCall.arms {κ : Type} : PlaceCall κ → Bool
  | .start _ | .pause => true
  | .execute command => WorkCommand.arms command
  | _ => false

/-- Whether a call on a handler starts or pauses its slot. -/
def HandlerCall.arms : HandlerCall → Bool
  | .execute command => WorkCommand.arms command
  | _ => false

/-- Whether a call starts or pauses a slot. -/
def Session.Arms (s : Session) (slot : Nat) : Call → Prop
  | .onPlace name call => call.arms = true ∧ s.names.places.get? name = some slot
  | .onHandler name call => call.arms = true ∧ ∃ id h, s.names.handlers.get? name = some id ∧ s.handlers[id]? = some h ∧ h.slot = slot
  | _ => False

instance (s : Session) (slot : Nat) (c : Call) : Decidable (s.Arms slot c) := by
  unfold Session.Arms
  split
  · infer_instance
  · next name call =>
    refine decidable_of_iff (call.arms = true ∧
      ((s.names.handlers.get? name).bind (s.handlers[·]?)).any (fun h => decide (h.slot = slot)) = true) ?_
    simp only [Option.any_eq_true, Option.bind_eq_some_iff, decide_eq_true_eq]
    exact and_congr_right fun _ => ⟨fun ⟨h, ⟨id, hid, hh⟩, hs⟩ => ⟨id, h, hid, hh, hs⟩,
      fun ⟨id, h, hid, hh, hs⟩ => ⟨h, ⟨id, hid, hh⟩, hs⟩⟩
  · infer_instance

/-- What a task does to the scheduler. -/
inductive Shift (s : Session) : Task → Scheduler Worker → Prop where
  /-- Nothing. -/
  | same {t : Task} : Shift s t s.scheduler
  /-- A slot is added. -/
  | add {c : Call} {asker : Asker} (label : String) : Shift s (.call c asker) (s.scheduler.add label).1
  /-- A slot is started. -/
  | start {c : Call} {asker : Asker} {slot : Nat} (delay : Nat) (ha : s.Arms slot c)
      (hb : (s.scheduler.slot slot).barred = false) : Shift s (.call c asker) (s.scheduler.start slot (s.now + delay)).1
  /-- A slot is paused. -/
  | pause {c : Call} {asker : Asker} {slot : Nat} (ha : s.Arms slot c) (hb : (s.scheduler.slot slot).barred = false) :
      Shift s (.call c asker) (s.scheduler.pause slot).1
  /-- A slot is stopped. -/
  | stop {slot : Nat} (hb : (s.scheduler.slot slot).barred = false) : Shift s (.stop slot) (s.scheduler.stop slot).1
  /-- A worker is put into an empty slot. -/
  | install {slot delay : Nat} {w : Worker} (hb : (s.scheduler.slot slot).barred = false)
      (hw : (s.scheduler.slot slot).worker = none) :
      Shift s (.install slot w delay) (s.scheduler.install slot w (s.now + delay))
  /-- A worker is to be put into a slot that is taken. -/
  | evict {slot delay : Nat} {w old : Worker} (hb : (s.scheduler.slot slot).barred = false)
      (hw : (s.scheduler.slot slot).worker = some old) : Shift s (.install slot w delay) (s.scheduler.evict slot)
  /-- A worker is put in where another one was taken out. -/
  | seat {slot at_ : Nat} {w : Worker} : Shift s (.seat slot w at_) (s.scheduler.install slot w at_)
  /-- A round comes to a slot. -/
  | claim {r : Round} {slot : Nat} {due : List Nat} (hr : r.due = slot :: due) :
      Shift s (.round r) (s.scheduler.claim slot r.now).1
  /-- A step ends. -/
  | conclude {r : Round} {slot g : Nat} {w : Worker} {outcome : Outcome} :
      Shift s (.conclude r slot g w outcome) (s.scheduler.conclude slot g w outcome s.now).1
  /-- A worker goes back to its slot after another one was discarded. -/
  | restore {r : Round} {slot : Nat} {c : Conclusion Worker} {w : Worker} (hc : c.returning = some w) :
      Shift s (.close r slot c) (s.scheduler.restore slot w)
  /-- A slot leaves the list of pending ones. -/
  | delist {r : Round} {slot : Nat} {c : Conclusion Worker} (hc : c.returning = none) (hf : c.finished = true) :
      Shift s (.close r slot c) (s.scheduler.delist slot)

/-- What a shift makes of a slot that there is: the slot with how often it is on the list of pending ones, and the number that is
given next. It is as it was, or as an operation on it leaves it. -/
inductive ShiftAt (s : Session) (k : Nat) : Task → Slot Worker × Nat → Nat → Prop where
  /-- Nothing. -/
  | same {t : Task} {next : Nat} : ShiftAt s k t (s.scheduler.view k) next
  /-- It is started. -/
  | start {c : Call} {asker : Asker} (delay : Nat) (ha : s.Arms k c) (hb : (s.scheduler.slot k).barred = false) :
      ShiftAt s k (.call c asker)
        ({ s.scheduler.slot k with phase := .queued (s.now + delay), seq := s.scheduler.nextSeq },
          Scheduler.listed (s.scheduler.pending.count k)) (s.scheduler.nextSeq + 1)
  /-- It is paused. -/
  | pause {c : Call} {asker : Asker} {next : Nat} (ha : s.Arms k c) (hb : (s.scheduler.slot k).barred = false) :
      ShiftAt s k (.call c asker) ({ s.scheduler.slot k with phase := .paused }, s.scheduler.pending.count k) next
  /-- It is stopped. -/
  | stop {next : Nat} (hb : (s.scheduler.slot k).barred = false) :
      ShiftAt s k (.stop k)
        ({ s.scheduler.slot k with worker := none, phase := .free, generation := (s.scheduler.slot k).generation + 1 }, 0) next
  /-- A worker is put into it while it is empty. -/
  | install {delay : Nat} {w : Worker} (hb : (s.scheduler.slot k).barred = false) (hw : (s.scheduler.slot k).worker = none) :
      ShiftAt s k (.install k w delay)
        ({ s.scheduler.slot k with
            worker := some w, barred := false, phase := .queued (s.now + delay), seq := s.scheduler.nextSeq },
          Scheduler.listed (s.scheduler.pending.count k)) (s.scheduler.nextSeq + 1)
  /-- Its worker is taken out for another one. -/
  | evict {delay next : Nat} {w old : Worker} (hb : (s.scheduler.slot k).barred = false)
      (hw : (s.scheduler.slot k).worker = some old) :
      ShiftAt s k (.install k w delay)
        ({ s.scheduler.slot k with worker := none, barred := true }, s.scheduler.pending.count k) next
  /-- The other one is put in. -/
  | seat {at_ : Nat} {w : Worker} :
      ShiftAt s k (.seat k w at_)
        ({ s.scheduler.slot k with worker := some w, barred := false, phase := .queued at_, seq := s.scheduler.nextSeq },
          Scheduler.listed (s.scheduler.pending.count k)) (s.scheduler.nextSeq + 1)
  /-- A round comes to it, and it is due without a worker. -/
  | vacate {r : Round} {due : List Nat} {next : Nat} (hr : r.due = k :: due) (hd : (s.scheduler.slot k).isDue r.now = true)
      (hw : (s.scheduler.slot k).worker = none) :
      ShiftAt s k (.round r) ({ s.scheduler.slot k with phase := .free }, 0) next
  /-- A round comes to it, and its worker is taken out for a step. -/
  | lend {r : Round} {due : List Nat} {next : Nat} {w : Worker} (hr : r.due = k :: due)
      (hd : (s.scheduler.slot k).isDue r.now = true) (hw : (s.scheduler.slot k).worker = some w) :
      ShiftAt s k (.round r) ({ s.scheduler.slot k with worker := none, phase := .running }, s.scheduler.pending.count k) next
  /-- A step ends after which the worker goes on. -/
  | again {r : Round} {w : Worker} {delay : Nat} (hw : (s.scheduler.slot k).worker = none) :
      ShiftAt s k (.conclude r k (s.scheduler.slot k).generation w (.ok (.again delay)))
        ({ s.scheduler.slot k with
            worker := some w, barred := false
            phase := if (s.scheduler.slot k).phase = .running then .queued (s.now + delay) else (s.scheduler.slot k).phase
            seq := if (s.scheduler.slot k).phase = .running then s.scheduler.nextSeq else (s.scheduler.slot k).seq },
          s.scheduler.pending.count k)
        (if (s.scheduler.slot k).phase = .running then s.scheduler.nextSeq + 1 else s.scheduler.nextSeq)
  /-- A step ends after which the worker goes on in place of another one that was put in. -/
  | takeOver {r : Round} {w other : Worker} {delay : Nat} (hw : (s.scheduler.slot k).worker = some other) :
      ShiftAt s k (.conclude r k (s.scheduler.slot k).generation w (.ok (.again delay)))
        ({ s.scheduler.slot k with
            worker := none, barred := true
            phase := if (s.scheduler.slot k).phase = .running then .queued (s.now + delay) else (s.scheduler.slot k).phase
            seq := if (s.scheduler.slot k).phase = .running then s.scheduler.nextSeq else (s.scheduler.slot k).seq },
          s.scheduler.pending.count k)
        (if (s.scheduler.slot k).phase = .running then s.scheduler.nextSeq + 1 else s.scheduler.nextSeq)
  /-- A step ends with which the worker is done. -/
  | finish {r : Round} {w : Worker} {next : Nat} :
      ShiftAt s k (.conclude r k (s.scheduler.slot k).generation w (.ok .finished))
        ({ s.scheduler.slot k with phase := .free }, s.scheduler.pending.count k) next
  /-- A step fails. -/
  | fail {r : Round} {w : Worker} {fault : WorkFault} {next : Nat} :
      ShiftAt s k (.conclude r k (s.scheduler.slot k).generation w (.error fault))
        ({ s.scheduler.slot k with phase := .free, generation := (s.scheduler.slot k).generation + 1 },
          s.scheduler.pending.count k) next
  /-- Its worker goes back to it. -/
  | restore {r : Round} {c : Conclusion Worker} {w : Worker} {next : Nat} (hc : c.returning = some w) :
      ShiftAt s k (.close r k c)
        ({ s.scheduler.slot k with worker := some w, barred := false }, s.scheduler.pending.count k) next
  /-- It leaves the list of pending ones. -/
  | delist {r : Round} {c : Conclusion Worker} {next : Nat} : ShiftAt s k (.close r k c) (s.scheduler.slot k, 0) next

namespace ShiftAux

variable {s : Session} {t : Task} {s' : Scheduler Worker} {k : Nat}

/-- What leaves a slot as it is. -/
theorem at_of_view {next : Nat} (hv : s'.view k = s.scheduler.view k) : ShiftAt s k t (s'.view k) next := by
  rw [hv]
  exact .same

theorem at_conclude {r : Round} {g : Nat} {w : Worker} {outcome : Outcome} (hk : s.scheduler.Knows k) :
    ShiftAt s k (.conclude r k g w outcome) ((s.scheduler.conclude k g w outcome s.now).1.view k)
      (s.scheduler.conclude k g w outcome s.now).1.nextSeq := by
  by_cases hg : (s.scheduler.slot k).generation = g
  · subst hg
    rcases outcome with fault | ⟨delay⟩ | -
    · rw [Scheduler.view_conclude_error hk]
      exact .fail
    · rw [Scheduler.nextSeq_conclude_again]
      cases hw : (s.scheduler.slot k).worker with
      | none =>
        rw [Scheduler.view_conclude_again hk w delay s.now hw]
        exact .again hw
      | some other =>
        rw [Scheduler.view_conclude_over hk w delay s.now hw]
        exact .takeOver hw
    · rw [Scheduler.view_conclude_finished hk]
      exact .finish
  · exact at_of_view (Scheduler.view_conclude_stale hg w outcome s.now)

end ShiftAux

namespace Shift

open ShiftAux

variable {s : Session} {t : Task} {s' : Scheduler Worker} {k : Nat}

/-- Of a slot that there is, a shift makes one of the things that `ShiftAt` lists. -/
theorem shiftAt (h : Shift s t s') (hk : s.scheduler.Knows k) : ShiftAt s k t (s'.view k) s'.nextSeq := by
  cases h with
  | same => exact .same
  | add label => exact at_of_view ((Scheduler.view_add _).trans (if_neg (Nat.ne_of_lt hk)))
  | @start c asker slot delay ha hb =>
    rcases eq_or_ne k slot with rfl | hne
    · by_cases hc : (s.scheduler.slot k).worker = none ∧ (s.scheduler.slot k).phase ≠ .running
      · exact at_of_view ((Scheduler.view_start hk _).trans (if_pos hc))
      · rw [Scheduler.view_start hk, if_neg hc, Scheduler.nextSeq_start hc]
        exact .start delay ha hb
    · exact at_of_view (Scheduler.view_start_ne hne _)
  | @pause c asker slot ha hb =>
    rcases eq_or_ne k slot with rfl | hne
    · by_cases hf : (s.scheduler.slot k).phase = .free
      · exact at_of_view ((Scheduler.view_pause hk).trans (if_pos hf))
      · rw [Scheduler.view_pause hk, if_neg hf]
        exact .pause ha hb
    · exact at_of_view (Scheduler.view_pause_ne hne)
  | @stop slot hb =>
    rcases eq_or_ne k slot with rfl | hne
    · by_cases hu : (s.scheduler.slot k).phase = .free ∧ (s.scheduler.slot k).worker = none
      · exact at_of_view ((Scheduler.view_stop hk).trans (if_pos hu))
      · rw [Scheduler.view_stop hk, if_neg hu]
        exact .stop hb
    · exact at_of_view (Scheduler.view_stop_ne hne)
  | @install slot delay w hb hw =>
    rcases eq_or_ne k slot with rfl | hne
    · rw [Scheduler.view_install hk, Scheduler.nextSeq_install]
      exact .install hb hw
    · exact at_of_view (Scheduler.view_install_ne hne _ _)
  | @evict slot delay w old hb hw =>
    rcases eq_or_ne k slot with rfl | hne
    · rw [Scheduler.view_evict hk]
      exact .evict hb hw
    · exact at_of_view (Scheduler.view_evict_ne hne)
  | @seat slot at_ w =>
    rcases eq_or_ne k slot with rfl | hne
    · rw [Scheduler.view_install hk, Scheduler.nextSeq_install]
      exact .seat
    · exact at_of_view (Scheduler.view_install_ne hne _ _)
  | @claim r slot due hr =>
    rcases eq_or_ne k slot with rfl | hne
    · by_cases hd : (s.scheduler.slot k).isDue r.now = true
      · rw [Scheduler.view_claim hk, if_pos hd]
        cases hw : (s.scheduler.slot k).worker with
        | none =>
          rw [if_pos rfl]
          exact .vacate hr hd hw
        | some w =>
          rw [if_neg (Option.some_ne_none w)]
          exact .lend hr hd hw
      · exact at_of_view ((Scheduler.view_claim hk _).trans (if_neg hd))
    · exact at_of_view (Scheduler.view_claim_ne hne _)
  | @conclude r slot g w outcome =>
    rcases eq_or_ne k slot with rfl | hne
    · exact at_conclude hk
    · exact at_of_view (Scheduler.view_conclude_ne hne _ _ _ _)
  | @restore r slot c w hc =>
    rcases eq_or_ne k slot with rfl | hne
    · rw [Scheduler.view_restore hk]
      exact .restore hc
    · exact at_of_view (Scheduler.view_restore_ne hne _)
  | @delist r slot c =>
    rcases eq_or_ne k slot with rfl | hne
    · rw [Scheduler.view_delist]
      exact .delist
    · exact at_of_view (Scheduler.view_delist_ne hne)

/-- The generation of a slot never goes down. -/
theorem generation_le (h : Shift s t s') (k : Nat) : (s.scheduler.slot k).generation ≤ (s'.slot k).generation := by
  by_cases hk : s.scheduler.Knows k
  · have hle {v : Slot Worker × Nat} {next : Nat} (hat : ShiftAt s k t v next) :
        (s.scheduler.slot k).generation ≤ v.1.generation := by
      cases hat with
      | stop | fail => exact Nat.le_succ _
      | _ => exact Nat.le_refl _
    exact hle (h.shiftAt hk)
  · rw [Scheduler.slot_of_not_knows hk]
    exact Nat.zero_le _

/-- Numbers are given in order. -/
theorem nextSeq_le (h : Shift s t s') : s.scheduler.nextSeq ≤ s'.nextSeq := by
  cases h with
  | start =>
    unfold Scheduler.start
    dsimp only
    split
    · exact Nat.le_refl _
    · rw [Scheduler.nextSeq_enlist]
      exact Nat.le_succ _
  | pause =>
    unfold Scheduler.pause
    split <;> exact Nat.le_refl _
  | stop =>
    unfold Scheduler.stop
    dsimp only
    split <;> exact Nat.le_refl _
  | install | seat =>
    rw [Scheduler.nextSeq_install]
    exact Nat.le_succ _
  | claim =>
    unfold Scheduler.claim
    dsimp only
    split
    · split <;> exact Nat.le_refl _
    · exact Nat.le_refl _
  | conclude =>
    unfold Scheduler.conclude
    dsimp only
    split
    · exact Nat.le_refl _
    · split
      · split <;> split <;> first | exact Nat.le_refl _ | exact Nat.le_succ _
      · exact Nat.le_refl _
      · exact Nat.le_refl _
  | _ => exact Nat.le_refl _

end Shift

/-- `m'` comes from `m` by what `t` does to the scheduler. -/
def Machine.Shifts (m : Machine) (t : Task) (m' : Machine) : Prop := Shift m.session t m'.session.scheduler

namespace ShiftAux

open OfficeAux

variable {m m' : Machine} {t : Task} {c : Call} {asker : Asker}

theorem shifts_quietly (h : m.Quietly m') : m.Shifts t m' := by
  have hs : m'.session.scheduler = m.session.scheduler := congrArg Office.scheduler h.1
  rw [Machine.Shifts, hs]
  exact .same

theorem shifts_answer (h : m.Shifts t m') (asker : Asker) (r : Reply) : m.Shifts t (m'.answer asker r) := by
  cases asker <;> exact h

/-- An answer after changes that the scheduler has no part in. -/
theorem shifts_reply (h : m'.session.scheduler = m.session.scheduler) (asker : Asker) (r : Reply) :
    m.Shifts t (m'.answer asker r) := by
  refine shifts_answer ?_ asker r
  rw [Machine.Shifts, h]
  exact .same

theorem shifts_onSlot {slot : Nat} {go : Machine} (h : (m.session.scheduler.slot slot).barred = false → m.Shifts t go) :
    m.Shifts t (m.onSlot slot go) := by
  unfold Machine.onSlot
  split
  · exact .same
  · next hb => exact h (by simpa using hb)

theorem shifts_find {α : Type} {found : Option α} {what : Missing} {go : α → Machine}
    (h : ∀ a, found = some a → m.Shifts t (go a)) : m.Shifts t (m.find asker found what go) := by
  cases found with
  | none => exact shifts_reply (by rfl) asker _
  | some a => exact h a rfl

theorem shifts_withGrammar {α : Type} {made : Except GrammarError α} {go : α → Machine}
    (h : ∀ a, made = .ok a → m.Shifts t (go a)) : m.Shifts t (m.withGrammar asker made go) := by
  cases made with
  | error e => exact shifts_reply (by rfl) asker _
  | ok a => exact h a rfl

theorem shifts_start {slot delay : Nat} {r : Bool → Reply} (ha : m.session.Arms slot c) :
    m.Shifts (.call c asker) (m.start slot delay fun m started => m.answer asker (r started)) :=
  shifts_onSlot fun hb =>
    have hs : m.Shifts (.call c asker) (m.schedule (m.session.scheduler.start slot (m.session.now + delay)).1) :=
      Shift.start delay ha hb
    shifts_answer hs asker _

theorem shifts_pause {slot : Nat} {r : Bool → Reply} (ha : m.session.Arms slot c) :
    m.Shifts (.call c asker) (m.pause slot fun m paused => m.answer asker (r paused)) :=
  shifts_onSlot fun hb =>
    have hp : m.Shifts (.call c asker) (m.schedule (m.session.scheduler.pause slot).1) := Shift.pause ha hb
    shifts_answer hp asker _

theorem shifts_execute {slot command : Nat} (ha : WorkCommand.arms command = true → m.session.Arms slot c) :
    m.Shifts (.call c asker) (m.execute asker slot command) := by
  unfold Machine.execute
  split
  · exact shifts_reply (by rfl) asker _
  · next h => exact shifts_start (ha (by simp [WorkCommand.arms, h]))
  · next h => exact shifts_pause (ha (by simp [WorkCommand.arms, h]))
  · exact .same

theorem shifts_onDocument (m : Machine) (asker : Asker) (id : Nat) (call : DocumentCall Call) :
    m.Shifts t (m.onDocument asker id call) := by
  cases call with
  | edit e => exact shifts_quietly (quietly_edit m asker id e)
  | clear => exact shifts_reply (by rfl) asker _
  | raise event => exact .same
  | complain source message => exact .same
  | annotate line a =>
    simp only [Machine.onDocument]
    split <;> exact shifts_reply (by rfl) asker _
  | line line =>
    simp only [Machine.onDocument]
    split <;> exact shifts_reply (by rfl) asker _
  | describe => exact shifts_reply (by rfl) asker _
  | isSame other => exact shifts_find fun _ _ => shifts_reply (by rfl) asker _
  | snapshot stream => exact shifts_reply (by rfl) asker _
  | observe observer reaction => exact shifts_answer (shifts_quietly (quietly_observe m id observer reaction)) asker _
  | openSink sink errorColor => exact shifts_reply (by rfl) asker _
  | openWorker worker grammar options token =>
    refine shifts_withGrammar fun g _ => shifts_answer ?_ asker _
    unfold Machine.openWorker
    cases token.bind m.session.names.tokens.get? <;> exact .same

theorem shifts_onPlace (m : Machine) (asker : Asker) {name : String} {slot : Nat}
    (hs : m.session.names.places.get? name = some slot) (call : PlaceCall Call) :
    m.Shifts (.call (.onPlace name call) asker) (m.onPlace asker slot call) := by
  cases call with
  | queue script delay => exact .same
  | queueParse worker delay => exact shifts_find fun _ _ => .same
  | start delay => exact shifts_start ⟨rfl, hs⟩
  | pause => exact shifts_pause ⟨rfl, hs⟩
  | stop => exact .same
  | execute command => exact shifts_execute fun ha => ⟨ha, hs⟩
  | status => exact shifts_onSlot fun _ => shifts_reply (by rfl) asker _

theorem shifts_onHandler (m : Machine) (asker : Asker) {name : String} {id : Nat} {h : Handler}
    (hn : m.session.names.handlers.get? name = some id) (hh : m.session.handlers[id]? = some h) (call : HandlerCall) :
    m.Shifts (.call (.onHandler name call) asker) (m.onHandler asker id h call) := by
  cases call with
  | reparse => exact .same
  | enable on =>
    simp only [Machine.onHandler]
    split
    · exact shifts_reply (by rfl) asker _
    · exact .same
  | dispose => exact .same
  | execute command => exact shifts_execute fun ha => ⟨ha, id, h, hn, hh, rfl⟩

theorem shifts_makeHandler (m : Machine) (asker : Asker) (c : Call) (name : String) (p : HandlerPlan Nat) :
    m.Shifts (.call c asker) (m.makeHandler asker name p) := by
  unfold Machine.makeHandler
  split
  · exact shifts_reply (by rfl) asker _
  · exact shifts_reply (by rfl) asker _
  · exact .add _

theorem scheduler_work (m : Machine) (w : Worker) (next : Worker → Outcome → Task) :
    (m.work w next).session.scheduler = m.session.scheduler := by
  obtain ⟨w', outcome, s, new, h, ho, -, -⟩ := work_spec m w next
  rw [h]
  exact congrArg Office.scheduler ho

theorem shifts_perform (m : Machine) (asker : Asker) (c : Call) : m.Shifts (.call c asker) (m.perform asker c) := by
  cases c with
  | document doc text site => exact shifts_reply (by rfl) asker _
  | onDocument doc call => exact shifts_find fun id _ => shifts_onDocument m asker id call
  | readSnapshot stream query => exact shifts_find fun _ _ => shifts_reply (by rfl) asker _
  | unobserve name => exact shifts_find fun _ _ => shifts_reply (by rfl) asker _
  | release name => exact shifts_answer (shifts_quietly (quietly_letGo m name)) asker _
  | drive kind rounds => exact .same
  | options => exact shifts_reply (by rfl) asker _
  | advance time => exact shifts_reply (by rfl) asker _
  | setClock time => exact shifts_reply (by rfl) asker _
  | place name => exact .add name
  | dropPlace name =>
    simp only [Machine.perform, Machine.dropPlace]
    split
    · exact shifts_reply (by rfl) asker _
    · exact .same
  | onPlace name call => exact shifts_find fun slot hs => shifts_onPlace m asker hs call
  | register made extensions => exact shifts_withGrammar fun _ _ => shifts_withGrammar fun _ _ => shifts_reply (by rfl) asker _
  | registerDefinition text => exact shifts_withGrammar fun _ _ => shifts_reply (by rfl) asker _
  | handler name plan =>
    simp only [Machine.perform]
    split
    · exact shifts_makeHandler m asker _ name _
    · exact shifts_find fun _ _ => shifts_makeHandler m asker _ name _
  | dropHandler name =>
    simp only [Machine.perform, Machine.dropHandler]
    split
    · exact shifts_reply (by rfl) asker _
    · exact .same
  | onHandler name call => exact shifts_find fun id hn => shifts_find fun h hh => shifts_onHandler m asker hn hh call
  | token name parent =>
    simp only [Machine.perform]
    split
    · exact shifts_reply (by rfl) asker _
    · exact shifts_find fun _ _ => shifts_reply (by rfl) asker _
  | cancel name => exact shifts_find fun _ _ => shifts_reply (by rfl) asker _
  | stepWorker name =>
    refine shifts_find fun w _ => ?_
    rw [Machine.Shifts, scheduler_work]
    exact .same
  | onSink name call => exact shifts_find fun _ _ => shifts_quietly (quietly_onSink m asker _ _ call)

theorem shifts_round (m : Machine) (r : Round) : m.Shifts (.round r) (m.round r) := by
  unfold Machine.round
  split
  · unfold Machine.endRound
    dsimp only
    split
    · exact .same
    · exact shifts_reply (by rfl) _ _
  · next slot due hr =>
    dsimp only
    have hc : Shift m.session (.round r) (m.session.scheduler.claim slot r.now).1 := .claim hr
    split
    · next scheduler w g heq =>
      rw [Machine.Shifts, scheduler_work]
      rw [heq] at hc
      exact hc
    · next scheduler _ _ heq =>
      rw [heq] at hc
      exact hc

theorem shifts_close (m : Machine) (r : Round) (slot : Nat) (c : Conclusion Worker) :
    m.Shifts (.close r slot c) (m.close r slot c) := by
  obtain ⟨m', hs, hclose⟩ := m.close_cases r slot c
  have h : m.Shifts (.close r slot c) m' := by
    cases hs with
    | returned hc => exact Shift.restore hc
    | finished hc hf => exact Shift.delist hc hf
    | unfinished hc hf => exact .same
  rcases hclose with ⟨reason, -, he⟩ | ⟨-, he⟩
  · rw [he]
    exact shifts_answer h _ _
  · rw [he]
    exact h

end ShiftAux

open ShiftAux

/-- Every task shifts the schedule in one of the ways that `Shift` lists. -/
theorem Machine.run_shift (m : Machine) (t : Task) : Shift m.session t (m.run t).session.scheduler := by
  cases t with
  | call c asker => exact shifts_perform m asker c
  | answer asker reply => exact shifts_reply (by rfl) asker reply
  | script calls => cases calls <;> exact .same
  | raise document event => exact .same
  | deliver event told rest => cases rest <;> exact .same
  | notify watcher event => exact shifts_quietly (OfficeAux.quietly_notify m event watcher)
  | complain document source message => exact shifts_quietly (OfficeAux.quietly_complain m document source message)
  | clear document => exact .same
  | requestParse handler =>
    simp only [Machine.run, Machine.requestParse]
    split
    · exact .same
    · split <;> exact .same
  | dispose handler => exact shifts_quietly (OfficeAux.quietly_dispose m handler)
  | cancel token => exact .same
  | stop slot => exact shifts_onSlot .stop
  | discard w => exact .same
  | install slot w delay =>
    refine shifts_onSlot fun hb => ?_
    split
    · next hw => exact .install hb hw
    · next old hw => exact .evict hb hw
  | seat slot w at_ => exact .seat
  | beginRound d =>
    simp only [Machine.run, Machine.beginRound]
    split
    · exact shifts_reply (by rfl) _ _
    · split <;> exact .same
  | round r => exact shifts_round m r
  | conclude r slot g w outcome => exact .conclude
  | close r slot c => exact shifts_close m r slot c
  | putBack asker name w outcome => exact shifts_reply (by rfl) asker _

end LiveHighlight
