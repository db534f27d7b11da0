import LiveHighlight.Proofs.Session.Arming
import LiveHighlight.Proofs.Session.Drives

/-!
# A fault stays with its worker

As long as nothing starts, pauses, stops or fills a slot during a round, a step that fails costs its own slot the worker and leaves
all other slots as they are. If the fault is recoverable, the round goes on with the slots that it has not come to yet; if it is
fatal, these slots are the first ones of the next round, in the same order (`Course.isolated`).

`Progress` is what is true of the task of such a round while the round goes on: the slots that were due where the host asked for it
are those that it has come to, with the workers that they held there, followed by those that it has not come to, which are as they
were.
-/

namespace LiveHighlight

/-! ## Slots that nothing happens to -/

namespace Scheduler

variable {ω : Type} {s s' s'' : Scheduler ω} {changed more : List Nat}

/-- Whether all slots are still there, and only some have changed. -/
structure Spares (s s' : Scheduler ω) (changed : List Nat) : Prop where
  length : s.slots.length ≤ s'.slots.length
  view : ∀ k ∉ changed, s.Knows k → s'.view k = s.view k

theorem Spares.refl (s : Scheduler ω) (changed : List Nat) : s.Spares s changed := ⟨Nat.le_refl _, fun _ _ _ => rfl⟩

theorem Spares.trans (h : s.Spares s' changed) (h' : s'.Spares s'' more) (hm : more ⊆ changed) : s.Spares s'' changed :=
  ⟨Nat.le_trans h.length h'.length,
    fun k hk known => (h'.view k (fun hmem => hk (hm hmem)) (Nat.lt_of_lt_of_le known h.length)).trans (h.view k hk known)⟩

theorem Spares.mono (h : s.Spares s' changed) (hm : changed ⊆ more) : s.Spares s' more :=
  ⟨h.length, fun k hk => h.view k fun hmem => hk (hm hmem)⟩

end Scheduler

/-- Slots are never taken away. -/
theorem Shift.length_le {s : Session} {t : Task} {s' : Scheduler Worker} (shift : Shift s t s') :
    s.scheduler.slots.length ≤ s'.slots.length := by
  cases shift <;> simp [Scheduler.delist]

/-! ## Rounds -/

/-- Whether the host is not back yet, nothing starts, pauses, stops or fills a slot, and no code that the host lent lets work
run. -/
def Undisturbed (later : List Machine) : Prop := ∀ q ∈ later, q.agenda ≠ [] ∧ ¬ Reenters q.agenda ∧ ∀ k, ¬ q.Touches k

/-- The steps that were begun, the first one first: the slots and the workers. -/
def begun (later : List Machine) : List (Nat × Worker) := (later.filterMap Machine.begun?).reverse

/-- Whether the steps that were begun are those of some slots, in this order, and of the workers that they hold at `p`. -/
def Machine.Stepped (p : Machine) (slots : List Nat) (later : List Machine) : Prop :=
  (begun later).map (fun b => (b.1, some b.2)) = slots.map fun k => (k, (p.session.scheduler.slot k).worker)

/-- Whether the workers of some slots took a step each, in this order, up to one that failed fatally. -/
def Machine.Serves (p : Machine) (slots : List Nat) (later : List Machine) (m : Machine) : Prop :=
  ∃ reached left, slots = reached ++ left ∧ p.Stepped reached later ∧
    (left ≠ [] → ∃ reason, m.reply = some (.failed (.fatal reason)))

theorem begun_cons (q : Machine) (later : List Machine) : begun (q :: later) = begun later ++ q.begun?.toList := by
  cases hq : q.begun? <;> simp [begun, hq]

theorem begun_append (later before : List Machine) : begun (later ++ before) = begun before ++ begun later := by
  simp [begun]

namespace IsolationAux

/-- What is true of a round `r` of a tick that the host asked for at `p`, which has come to some slots. -/
structure Advanced (p : Machine) (later : List Machine) (m : Machine) (r : Round) (reached : List Nat) : Prop where
  left : r.drive.left = 0
  host : r.drive.asker = .host
  now : r.now = p.session.now
  due : p.due = reached ++ r.due
  stepped : p.Stepped reached later
  spares : p.session.scheduler.Spares m.session.scheduler reached

/-- What is true of a slot `k` during a step of its worker, which is `w` after the step. -/
structure Lent (later : List Machine) (m : Machine) (k g : Nat) (w : Worker) : Prop where
  worker : (m.session.scheduler.slot k).worker = none
  generation : (m.session.scheduler.slot k).generation = g
  since : ∃ b ∈ later, ∃ w₀, b.Begins k w₀ ∧ w₀.Later w ∧ b.session.scheduler.Spares m.session.scheduler [k]

/-- How far a tick is that the host asked for at `p`; the machines passed since are `later`. -/
inductive Stage (p : Machine) (later : List Machine) (m : Machine) : Task → Prop where
  | starting {d : Drive} (left : d.left = 1) (host : d.asker = .host) (none : begun later = [])
      (scheduler : m.session.scheduler = p.session.scheduler) (now : m.session.now = p.session.now) : Stage p later m (.beginRound d)
  | going {r : Round} {reached : List Nat} (h : Advanced p later m r reached) : Stage p later m (.round r)
  | stepping {r : Round} {k g : Nat} {w : Worker} {outcome : Outcome} {reached : List Nat}
      (h : Advanced p later m r (reached ++ [k])) (lent : Lent later m k g w) : Stage p later m (.conclude r k g w outcome)
  | closing {r : Round} {k : Nat} {c : Conclusion Worker} {reached : List Nat} (h : Advanced p later m r (reached ++ [k]))
      (returning : c.returning = none) : Stage p later m (.close r k c)

/-- The stage of a tick, and that no slot is barred. -/
structure Progress (p : Machine) (later : List Machine) (m : Machine) (x : Task) : Prop where
  unbarred : ∀ k, (m.session.scheduler.slot k).barred = false
  stage : Stage p later m x

variable {p q m : Machine} {later earlier past : List Machine} {x x' t : Task} {rest : List Task} {r : Round} {k g : Nat} {w : Worker}
  {reached slots : List Nat}

theorem stepped_of_none (h : p.Stepped slots later) (hq : q.begun? = none) : p.Stepped slots (q :: later) := by
  unfold Machine.Stepped
  rw [begun_cons, hq, Option.toList_none, List.append_nil]
  exact h

theorem stepped_of_begins (h : p.Stepped slots later) (hq : q.Begins k w) (hw : (p.session.scheduler.slot k).worker = some w) :
    p.Stepped (slots ++ [k]) (q :: later) := by
  unfold Machine.Stepped at *
  rw [begun_cons, show q.begun? = some (k, w) from hq]
  simp [h, hw]

theorem Advanced.next {later' : List Machine} {m' : Machine} {r' : Round} (h : Advanced p later m r reached) (left : r'.drive = r.drive)
    (now : r'.now = r.now) (due : r'.due = r.due) (stepped : p.Stepped reached later')
    (spares : m.session.scheduler.Spares m'.session.scheduler reached) : Advanced p later' m' r' reached :=
  ⟨left ▸ h.left, left ▸ h.host, now.trans h.now, due ▸ h.due, stepped, h.spares.trans spares (List.Subset.refl _)⟩

theorem Lent.next {m' : Machine} (h : Lent later m k g w) (spares : m.session.scheduler.Spares m'.session.scheduler []) :
    Lent (q :: later) m' k g w := by
  obtain ⟨b, hb, w₀, begins, hl, since⟩ := h.since
  obtain ⟨_, _, _, _, -, -, hc⟩ := Machine.begins_iff.1 begins
  have known : m.session.scheduler.Knows k :=
    Nat.lt_of_lt_of_le (Scheduler.knows_of_worker (Scheduler.claim_step hc).2.1) since.length
  have hv := congrArg Prod.fst (spares.view k (by simp) known)
  simp only [Scheduler.view] at hv
  exact ⟨hv ▸ h.worker, hv ▸ h.generation, b, .tail _ hb, w₀, begins, hl, since.trans spares (by simp)⟩

/-! ### During a step -/

/-- What does not touch any slot and belongs to no round leaves the slots as they are. -/
theorem view_plain {s : Session} {s' : Scheduler Worker} (shift : Shift s t s') (ht : t.isRound = false)
    (arms : ∀ c asker, t = .call c asker → ¬ s.Arms k c) (slot : t.slot? ≠ some k) (known : s.scheduler.Knows k) :
    s'.view k = s.scheduler.view k := by
  have hat := shift.shiftAt known
  generalize s'.view k = v at hat ⊢
  generalize s'.nextSeq = next at hat
  cases hat with
  | same => rfl
  | start _ harms | pause harms => exact absurd harms (arms _ _ rfl)
  | stop | install | evict | seat => exact absurd rfl slot
  | _ => cases ht

theorem arms_of_touches (ha : q.agenda = t :: rest) (untouched : ¬ q.Touches k) (c : Call) (asker : Asker) (ht : t = .call c asker) :
    ¬ q.session.Arms k c := by
  subst ht
  unfold Machine.Touches at untouched
  rwa [ha] at untouched

theorem slot_of_touches (ha : q.agenda = t :: rest) (untouched : ¬ q.Touches k) (ht : t.isRound = false) : t.slot? ≠ some k := by
  intro hs
  unfold Machine.Touches at untouched
  rw [ha] at untouched
  cases t with
  | stop | install | seat => exact untouched (Option.some.inj hs)
  | conclude | close => cases ht
  | _ => cases hs

theorem spares_plain (ha : q.agenda = t :: rest) (untouched : ∀ k, ¬ q.Touches k) (ht : t.isRound = false) (changed : List Nat) :
    q.session.scheduler.Spares ({ q with agenda := rest }.run t).session.scheduler changed :=
  ⟨({ q with agenda := rest }.run_shift t).length_le, fun k _ =>
    view_plain ({ q with agenda := rest }.run_shift t) ht (arms_of_touches ha (untouched k)) (slot_of_touches ha (untouched k) ht)⟩

/-- What bars no slot that there is bars none. -/
theorem unbarred_of_spares {s : Session} {s' : Scheduler Worker} {changed : List Nat} (shift : Shift s t s')
    (spares : s.scheduler.Spares s' changed) (unbarred : ∀ k, (s.scheduler.slot k).barred = false)
    (hc : ∀ k ∈ changed, (s'.slot k).barred = false) (k : Nat) : (s'.slot k).barred = false := by
  by_cases hk : k ∈ changed
  · exact hc k hk
  by_cases known : s.scheduler.Knows k
  · have hv := congrArg Prod.fst (spares.view k hk known)
    simp only [Scheduler.view] at hv
    rw [hv]
    exact unbarred k
  · obtain ⟨label, hs⟩ := StartingAux.slot_of_added shift known
    rw [hs]
    rfl

theorem progress_plain {pre : List Task} (h : Progress p later q x) (ha : q.agenda = t :: (pre ++ [x]))
    (untouched : ∀ k, ¬ q.Touches k) (ht : OrderlyAux.Plain t) (hs : x.slot? ≠ none) :
    Progress p (q :: later) ({ q with agenda := pre ++ [x] }.run t) x := by
  have spares := spares_plain ha untouched ht.1
  have hnone : q.begun? = none := DrivesAux.begun_of_not_round ha fun r hr => by simp [hr, OrderlyAux.Plain, Task.isRound] at ht
  refine ⟨unbarred_of_spares ({ q with agenda := pre ++ [x] }.run_shift t) (spares []) h.unbarred (by simp), ?_⟩
  cases h.stage with
  | starting | going => exact absurd rfl hs
  | stepping adv lent => exact .stepping (adv.next rfl rfl rfl (stepped_of_none adv.stepped hnone) (spares _)) (lent.next (spares []))
  | closing adv returning => exact .closing (adv.next rfl rfl rfl (stepped_of_none adv.stepped hnone) (spares _)) returning

/-! ### The beats of a round -/

/-- A slot that was due where the host asked for the round holds a worker. -/
theorem worker_of_due (run : Machine.Course past p) {c : Call} (asked : p.agenda = [.call c .host])
    (unbarred : ∀ k, (p.session.scheduler.slot k).barred = false) (hk : k ∈ p.due) :
    ∃ w, (p.session.scheduler.slot k).worker = some w := by
  obtain ⟨at_, -, happ⟩ := Slot.isDue_iff.1 (Scheduler.mem_due_iff.1 hk).2
  cases hw : (p.session.scheduler.slot k).worker with
  | some w => exact ⟨w, rfl⟩
  | none =>
    have hf : (p.session.scheduler.slot k).phase ≠ .free := by
      rw [Slot.appointment_eq_some.1 happ]
      nofun
    rcases (run.used.resolve_left (Machine.not_crashed_of_agenda asked)) k hf hw with hb | ⟨r, w, outcome, hx⟩
    · exact absurd ((unbarred k).symm.trans hb) Bool.false_ne_true
    · rw [asked] at hx
      cases List.mem_singleton.1 hx

/-- The slot that a round comes to is as it was where the host asked for the round, and its worker takes a step. -/
theorem claim_of_advanced {due : List Nat} (adv : Advanced p later q r reached) (hr : r.due = k :: due) (nodup : p.due.Nodup)
    (held : (p.session.scheduler.slot k).worker = some w) :
    (q.session.scheduler.claim k r.now).2 = .step w (p.session.scheduler.slot k).generation := by
  have hmem : k ∈ p.due := by simp [adv.due, hr]
  have hnot : k ∉ reached := by
    intro hk
    rw [adv.due, hr] at nodup
    exact (List.nodup_append.1 nodup).2.2 k hk k (.head _) rfl
  have hv := congrArg Prod.fst (adv.spares.view k hnot (Scheduler.knows_of_worker held))
  simp only [Scheduler.view] at hv
  rw [← hv] at held ⊢
  refine Scheduler.claim_of_due ?_ held
  rw [hv, adv.now]
  exact (Scheduler.mem_due_iff.1 hmem).2

theorem spares_claim {s : Scheduler Worker} (now : Nat) : s.Spares (s.claim k now).1 [k] :=
  ⟨by simp, fun j hj _ => Scheduler.view_claim_ne (by simpa using hj) now⟩

theorem spares_conclude {s : Scheduler Worker} {outcome : Outcome} {now : Nat} : s.Spares (s.conclude k g w outcome now).1 [k] :=
  ⟨by simp, fun j hj _ => Scheduler.view_conclude_ne (by simpa using hj) g w outcome now⟩

theorem spares_close {c : Conclusion Worker} (returning : c.returning = none) :
    m.session.scheduler.Spares (m.close r k c).session.scheduler [k] ∧
      ∀ j, (m.close r k c).session.scheduler.slot j = m.session.scheduler.slot j := by
  obtain ⟨m', tidied, hclose⟩ := m.close_cases r k c
  have hs : (m.close r k c).session.scheduler = m'.session.scheduler := by
    rcases hclose with ⟨reason, -, he⟩ | ⟨-, he⟩
    · rw [he]
      cases r.drive.asker <;> rfl
    · rw [he]
      rfl
  rw [hs]
  cases tidied with
  | returned hc => cases returning.symm.trans hc
  | finished => exact ⟨⟨Nat.le_refl _, fun j hj _ => Scheduler.view_delist_ne (by simpa using hj)⟩, fun _ => rfl⟩
  | unfinished => exact ⟨.refl _ _, fun _ => rfl⟩

/-- A step begins with the worker that the slot held where the host asked for the round. -/
theorem progress_stepped {due : List Nat} {w' : Worker} {outcome : Outcome}
    (unbarred : ∀ k, (q.session.scheduler.slot k).barred = false) (adv : Advanced p later q r reached) (ha : q.agenda = [.round r])
    (hr : r.due = k :: due) (hc : (q.session.scheduler.claim k r.now).2 = .step w g)
    (held : (p.session.scheduler.slot k).worker = some w) (hl : w.Later w') :
    Progress p (q :: later) ({ q with agenda := [] }.run (.round r)) (.conclude { r with due } k g w' outcome) := by
  have begins : q.Begins k w := Machine.begins_iff.2 ⟨r, due, [], g, ha, hr, hc⟩
  have shift := { q with agenda := [] }.run_shift (.round r)
  have hs : ({ q with agenda := [] }.run (.round r)).session.scheduler = (q.session.scheduler.claim k r.now).1 :=
    FairnessAux.scheduler_round { q with agenda := [] } hr
  obtain ⟨hd, hw, hg⟩ := Scheduler.claim_step hc
  have hv := congrArg Prod.fst (Scheduler.view_claim (Scheduler.knows_of_worker hw) r.now)
  rw [if_pos hd, if_neg (by simp [hw])] at hv
  simp only [Scheduler.view] at hv
  have spares : q.session.scheduler.Spares ({ q with agenda := [] }.run (.round r)).session.scheduler [k] := hs ▸ spares_claim r.now
  refine ⟨unbarred_of_spares shift spares unbarred ?_, .stepping (?_ : Advanced p _ _ { r with due } (reached ++ [k])) ?_⟩
  · intro j hj
    obtain rfl := List.mem_singleton.1 hj
    rw [hs, hv]
    exact unbarred j
  · exact ⟨adv.left, adv.host, adv.now, by simp [adv.due, hr], stepped_of_begins adv.stepped begins held,
      (adv.spares.mono (by simp)).trans spares (by simp)⟩
  · exact ⟨by rw [hs, hv], by rw [hs, hv]; exact hg, q, .head _, w, begins, hl, spares⟩

/-- A step that ends leaves no worker to go back to its slot later. -/
theorem progress_concluded {outcome : Outcome} (unbarred : ∀ k, (q.session.scheduler.slot k).barred = false)
    (known : q.session.scheduler.Knows k) (adv : Advanced p later q r (reached ++ [k])) (lent : Lent later q k g w)
    (hq : q.begun? = none) :
    Progress p (q :: later) ({ q with agenda := [] }.run (.conclude r k g w outcome))
      (.close r k (q.session.scheduler.conclude k g w outcome q.session.now).2) := by
  have hw := lent.worker
  obtain rfl := lent.generation
  have shift := { q with agenda := [] }.run_shift (.conclude r k (q.session.scheduler.slot k).generation w outcome)
  refine ⟨unbarred_of_spares shift spares_conclude unbarred ?_, .closing (adv.next rfl rfl rfl (stepped_of_none adv.stepped hq)
    (spares_conclude.mono (by simp))) ?_⟩
  · intro j hj
    obtain rfl := List.mem_singleton.1 hj
    have hat := shift.shiftAt known
    generalize hv : Scheduler.view _ j = v at hat
    generalize Scheduler.nextSeq _ = next at hat
    have hslot := congrArg (fun v => v.1.barred) hv
    refine hslot.trans ?_
    cases hat with
    | again => rfl
    | takeOver hw' => cases hw.symm.trans hw'
    | same | finish | fail => exact unbarred j
  · rcases outcome with fault | ⟨delay⟩ | - <;> simp [Scheduler.conclude, hw]

/-- A beat of the tick carries it on. -/
theorem progress_beat (run : Machine.Course past q) (h : Progress p later q x) (ha : q.agenda = [x]) (hx : x.isRound = true)
    (nodup : p.due.Nodup) (held : ∀ k ∈ p.due, ∃ w, (p.session.scheduler.slot k).worker = some w) (beat : Beat q.session x x') :
    Progress p (q :: later) ({ q with agenda := [] }.run x) x' := by
  have hnone (hx : ∀ r, x ≠ .round r) : q.begun? = none := DrivesAux.begun_of_not_round ha hx
  cases beat with
  | driven => cases hx
  | @begun d hd hb =>
    obtain ⟨left, host, none_, scheduler, now⟩ := h.stage
    have hs : ({ q with agenda := [] }.run (.beginRound d)).session = q.session := by
      simp [Machine.run, Machine.beginRound, hd, hb, Machine.push]
    have none_yet : p.Stepped [] (q :: later) := stepped_of_none (by simp [Machine.Stepped, none_]) (hnone (by simp))
    refine ⟨by rw [hs]; exact h.unbarred, .going ⟨?_, host, now, ?_, none_yet, ?_⟩⟩
    · simp [left]
    · simp [Machine.due, scheduler, now]
    · rw [hs, scheduler]
      exact .refl _ _
  | @passed r k due hr hc =>
    obtain ⟨-, -, -, -, -⟩ | ⟨adv⟩ := h.stage
    obtain ⟨w, hw⟩ := held k (by simp [adv.due, hr])
    exact absurd (claim_of_advanced adv hr nodup hw) (hc _ _)
  | @stepped r k g due w w' outcome hr hc hl =>
    obtain ⟨-, -, -, -, -⟩ | ⟨adv⟩ := h.stage
    obtain ⟨w₀, hw⟩ := held k (by simp [adv.due, hr])
    obtain ⟨rfl, -⟩ := Claim.step.inj ((claim_of_advanced adv hr nodup hw).symm.trans hc)
    exact progress_stepped h.unbarred adv ha hr hc hw hl
  | @concluded r k g w outcome =>
    obtain - | - | ⟨adv, lent⟩ := h.stage
    have known := (run.known.resolve_left (Machine.not_crashed_of_agenda ha)).tasks (.conclude r k g w outcome) (by simp [ha]) k rfl
    exact progress_concluded h.unbarred known adv lent (hnone (by simp))
  | @closed r k c hc =>
    obtain - | - | - | ⟨adv, returning⟩ := h.stage
    obtain ⟨spares, hslots⟩ := spares_close (m := { q with agenda := [] }) (r := r) (k := k) returning
    refine ⟨fun j => ?_, .going (adv.next rfl rfl rfl (stepped_of_none adv.stepped (hnone (by simp))) (spares.mono (by simp)))⟩
    exact (congrArg Slot.barred (hslots j)).trans (h.unbarred j)
  | again hr left =>
    obtain - | ⟨adv⟩ := h.stage
    exact absurd adv.left left

/-- Where the host asks something, no slot is barred. -/
theorem unbarred_of_asked (run : Machine.Course past p) {c : Call} (asked : p.agenda = [.call c .host]) (k : Nat) :
    (p.session.scheduler.slot k).barred = false := by
  by_contra hb
  obtain ⟨x, hx, hbars⟩ := (run.barred.resolve_left (Machine.not_crashed_of_agenda asked)) k (by simpa using hb)
  rw [asked] at hx
  cases List.mem_singleton.1 hx
  exact hbars

end IsolationAux

open IsolationAux

namespace Machine

namespace Course

variable {later earlier : List Machine} {p m : Machine} {rounds : Nat}

/-- How far an undisturbed tick is. -/
theorem ticking (run : Course (later ++ p :: earlier) m) (asked : p.agenda = [.call (.drive .tick rounds) .host])
    (quiet : Undisturbed later) : m.Drives (Progress p) later := by
  have unbarred := unbarred_of_asked run.before asked
  refine run.driven (P := fun q => ∀ k, ¬ q.Touches k) asked (fun q hq => (quiet q hq).1) (fun q hq => (quiet q hq).2.1)
    (fun q hq => (quiet q hq).2.2) ⟨unbarred, .starting rfl rfl rfl rfl rfl⟩ ?_ ?_
  · intro later q t x pre _ hP h ha ht hs _ _
    exact progress_plain h ha (hP q (.head _)) ht hs
  · intro later q x x' pre run' _ h ha hx _ hb
    exact progress_beat run' h ha hx (Scheduler.nodup_due run.before.pending_nodup)
      (fun k hk => worker_of_due run.before asked unbarred hk) hb

/-- An undisturbed tick does not crash. -/
theorem alive (run : Course (later ++ p :: earlier) m) (asked : p.agenda = [.call (.drive .tick rounds) .host])
    (quiet : Undisturbed later) : ¬ m.Crashed := by
  cases later with
  | nil =>
    cases run with
    | ask c _ idle =>
      rintro ⟨he, -⟩
      cases he
    | step _ ha =>
      obtain ⟨rfl, rfl⟩ := List.cons.inj (asked.symm.trans ha)
      rintro ⟨he, -⟩
      cases he
  | cons q later =>
    obtain ⟨hq, -, -⟩ := quiet q (.head _)
    have run' := run.previous
    cases run with
    | ask c _ idle => exact absurd idle.1 hq
    | step _ ha =>
      -- only a barred slot makes it crash
      intro hc
      rcases run'.turn ha with ⟨-, slot, hb⟩ | ⟨_, _, _, hr⟩
      · cases ticking run' asked fun x hx => quiet x (.tail _ hx) with
        | crashed hc => exact hq hc.1
        | returned _ _ _ _ _ hnil => exact hq hnil
        | underway _ _ _ _ _ _ known => exact absurd (hb.symm.trans (known.unbarred slot)) (by simp)
      · exact hr hc.2

/-- An undisturbed tick lets every worker that is due take a step, in order, unless one fails fatally. -/
theorem serves (run : Course (later ++ p :: earlier) m) (asked : p.agenda = [.call (.drive .tick rounds) .host])
    (quiet : Undisturbed later) (ended : m.agenda = []) : p.Serves p.due later m := by
  have alive := run.alive asked quiet
  cases run.ticking asked quiet with
  | crashed hc => exact absurd hc alive
  | underway pre x ha =>
    rw [ended] at ha
    exact absurd ha.symm (by simp)
  | @returned before q x hl ha hr known hm _ =>
    subst hl
    have hreply : m.reply ≠ some .crashed := fun hc => alive ⟨ended, hc⟩
    cases known.stage with
    | starting left host =>
      have hzero := (DrivesAux.left_of_over hm ended host hreply).1
      rw [left] at hzero
      cases hzero
    | @going r reached adv =>
      obtain ⟨hdue, -, -, -⟩ := DrivesAux.due_of_over hm ended adv.host
      refine ⟨reached, [], by rw [adv.due, hdue], ?_, fun h => absurd rfl h⟩
      exact stepped_of_none adv.stepped (by simp [begun?, ha, hdue])
    | @stepping r k g w outcome reached adv lent =>
      rw [hm] at ended
      simp [Machine.run, Machine.conclude, Machine.push] at ended
    | @closing r k c reached adv returning =>
      refine ⟨reached ++ [k], r.due, adv.due, ?_, fun _ => DrivesAux.failed_of_over hm ended adv.host⟩
      exact stepped_of_none adv.stepped (DrivesAux.begun_of_not_round ha (by simp))

end Course

end Machine

/-! ## Failed steps -/

/-- Whether the slot `k` is free and off the list at `n`, and its worker `w` is discarded, which was all that was to be told. -/
structure Machine.Expels (q n : Machine) (k : Nat) (w : Worker) : Prop where
  free : (n.session.scheduler.slot k).phase = .free
  empty : (n.session.scheduler.slot k).worker = none
  unlisted : k ∉ n.session.scheduler.pending
  dropped : n.session.journal = q.session.journal.push (.dropped w.id w.name)

/-- Whether some slots that were due at `p` are the first ones of the next tick after `past`, in this order and with the workers
that they held at `p`, as long as they are left alone until then and the clock does not go back. -/
def Machine.Resumes (p : Machine) (slots : List Nat) (past : List Machine) : Prop :=
  ∀ (between : List Machine) (p' : Machine) (rounds : Nat), Course (between ++ past) p' →
    p'.agenda = [.call (.drive .tick rounds) .host] → (∀ x ∈ between, ∀ k ∈ slots, ¬ x.Touches k ∧ ∀ w, ¬ x.Begins k w) →
    (∀ x ∈ p' :: between, p.session.now ≤ x.session.now) →
    ∃ others, p'.due = slots ++ others ∧ (∀ k ∈ slots, p'.session.scheduler.view k = p.session.scheduler.view k) ∧
      ∀ (later : List Machine) (m : Machine), Course (later ++ p' :: (between ++ past)) m → Undisturbed later → m.agenda = [] →
        p'.Serves (slots ++ others) later m

namespace IsolationAux

variable {p q m : Machine} {later earlier past : List Machine} {rest : List Task} {r : Round} {k g : Nat} {w : Worker}
  {slots reached : List Nat} {f : WorkFault}

/-- What is left of the scheduler after a step that failed. -/
def freed (s : Scheduler Worker) (k : Nat) : Scheduler Worker :=
  (s.update k fun slot => { slot with phase := .free, generation := slot.generation + 1 }).delist k

/-- What is done after a step that failed, if the end of its worker calls nothing. -/
theorem settle_failed (ha : q.agenda = [.conclude r k g w (.error f)]) (hg : (q.session.scheduler.slot k).generation = g)
    (silent : w.onDrop = []) (host : r.drive.asker = .host) :
    (∃ between, (∀ past, q.passed 4 past = between ++ q :: past) ∧ ∀ x ∈ between, x.session.now = q.session.now) ∧
      q.settle 4 =
        { session :=
            { q.session with
              scheduler := freed q.session.scheduler k, journal := q.session.journal.push (.dropped w.id w.name) }
          agenda := if f.isRecoverable then [.round { r with ran := r.ran + 1 }] else []
          reply := if f.isRecoverable then q.reply else some (.failed f) } := by
  refine ⟨⟨q.step.passed 3 [], fun past => ?_, ?_⟩, ?_⟩
  · rw [← Machine.Course.passed_append]
    simp [Machine.passed, ha]
  · simp [Machine.passed, Machine.step, ha, Machine.run, Machine.conclude, Scheduler.conclude, hg, Machine.push, Machine.schedule,
      Machine.put, Machine.discard, Session.note, silent, Machine.script]
  · cases f <;> simp [Machine.settle, Machine.step, ha, Machine.run, Machine.conclude, Scheduler.conclude, hg, Machine.push,
      Machine.schedule, Machine.put, Machine.discard, Session.note, silent, Machine.script, Machine.close, freed, host,
      Machine.answer, WorkFault.isRecoverable]

theorem view_freed {s : Scheduler Worker} (known : s.Knows k) :
    (freed s k).view k = ({ s.slot k with phase := .free, generation := (s.slot k).generation + 1 }, 0) := by
  rw [freed, Scheduler.view_delist, Scheduler.slot_update_self known]

theorem spares_freed (s : Scheduler Worker) (k : Nat) : s.Spares (freed s k) [k] :=
  ⟨by simp [freed], fun j hj _ => by
    rw [freed, Scheduler.view_delist_ne (by simpa using hj)]
    simp [Scheduler.view, Scheduler.slot_update_ne (show j ≠ k by simpa using hj)]⟩

/-- Where a step of a tick ends, nothing else is left to do. -/
theorem ending_step {rounds : Nat} {outcome : Outcome} (run : Machine.Course (later ++ p :: earlier) q)
    (asked : p.agenda = [.call (.drive .tick rounds) .host]) (quiet : Undisturbed later)
    (ha : q.agenda = .conclude r k g w outcome :: rest) :
    rest = [] ∧ ∃ reached, Advanced p later q r (reached ++ [k]) ∧ Lent later q k g w := by
  cases run.ticking asked quiet with
  | crashed hc => exact absurd hc (Machine.not_crashed_of_agenda ha)
  | returned _ _ _ _ _ hnil =>
    rw [hnil] at ha
    cases ha
  | underway pre x hx plain step hr known =>
    cases pre with
    | nil =>
      obtain ⟨rfl, rfl⟩ := List.cons.inj (ha.symm.trans hx)
      obtain - | - | ⟨adv, lent⟩ := known.stage
      exact ⟨rfl, _, adv, lent⟩
    | cons y pre =>
      obtain ⟨rfl, -⟩ := List.cons.inj (ha.symm.trans hx)
      cases (plain _ (.head _)).1

/-- What is begun after some steps of a round are the steps of the slots that come next. -/
theorem serves_rest (hp : p.Stepped slots later) {left : List Nat} {after : List Machine} (hq : q.begun? = none)
    (h : p.Serves (slots ++ left) (after ++ q :: later) m) : p.Serves left after m := by
  obtain ⟨reached, left', he, hstepped, hend⟩ := h
  unfold Machine.Stepped at hp hstepped
  rw [begun_append, begun_cons, hq, Option.toList_none, List.append_nil, List.map_append, hp] at hstepped
  have hlength : slots.length ≤ reached.length := by
    have hl := congrArg List.length hstepped
    simp only [List.length_append, List.length_map] at hl
    omega
  obtain ⟨next, rfl⟩ := List.prefix_of_prefix_length_le (List.prefix_append slots left) (he ▸ List.prefix_append reached left') hlength
  refine ⟨next, left', ?_, ?_, hend⟩
  · rw [List.append_assoc] at he
    exact List.append_cancel_left he
  · rw [List.map_append] at hstepped
    exact List.append_cancel_left hstepped

/-- The slots whose workers took a step began it. -/
theorem begins_of_stepped (hp : p.Stepped slots later) (hk : k ∈ slots) : ∃ q ∈ later, ∃ w, q.Begins k w := by
  have hmem := List.mem_map_of_mem (f := fun k => (k, (p.session.scheduler.slot k).worker)) hk
  rw [← hp] at hmem
  obtain ⟨⟨k', w⟩, hb, he⟩ := List.mem_map.1 hmem
  obtain rfl : k' = k := congrArg Prod.fst he
  obtain ⟨q, hq, hbegun⟩ := List.mem_filterMap.1 (List.mem_reverse.1 hb)
  exact ⟨q, hq, w, hbegun⟩

end IsolationAux

namespace Machine

namespace Course

variable {later earlier : List Machine} {p q : Machine} {rounds : Nat} {r : Round} {k g : Nat} {w : Worker} {f : WorkFault}
  {rest : List Task}

/-- What a tick has left as it was, while all other slots that were due have begun a step, comes first in the next tick. -/
theorem resumes {n : Machine} {slots left : List Nat} (run : Course (later ++ p :: earlier) n)
    (asked : p.agenda = [.call (.drive .tick rounds) .host]) (ended : n.agenda = [])
    (clock : ∀ x ∈ n :: later, p.session.now ≤ x.session.now) (due : p.due = slots ++ left)
    (begun : ∀ k ∈ slots, ∃ q ∈ later, ∃ w, q.Begins k w)
    (kept : ∀ k ∈ left, n.session.scheduler.view k = p.session.scheduler.view k) : p.Resumes left (n :: (later ++ p :: earlier)) := by
  intro between p' rounds' run' asked' untouched clock'
  have held (k : Nat) (hk : k ∈ left) : p'.session.scheduler.view k = p.session.scheduler.view k := by
    obtain ⟨w, hw⟩ := worker_of_due run.before asked (unbarred_of_asked run.before asked) (k := k) (by simp [due, hk])
    have hslot : n.session.scheduler.slot k = p.session.scheduler.slot k := congrArg Prod.fst (kept k hk)
    exact (run'.left_alone ended (hslot ▸ hw) fun x hx => untouched x hx k hk).1.trans (kept k hk)
  have run₀ : Course ((between ++ n :: later) ++ p :: earlier) p' := by simpa using run'
  obtain ⟨others, hdue⟩ : ∃ others, p'.due = left ++ others := by
    refine run₀.due_first asked ?_ ?_ held ?_
    · intro x hx
      simp only [List.mem_cons, List.mem_append] at hx
      rcases hx with rfl | hx | rfl | hx
      · exact clock' x (.head _)
      · exact clock' x (.tail _ hx)
      · exact clock x (.head _)
      · exact clock x (.tail _ hx)
    · rw [due]
      exact List.sublist_append_right _ _
    · intro k hk hnot
      rw [due] at hk
      obtain ⟨q, hq, hb⟩ := begun k ((List.mem_append.1 hk).resolve_right hnot)
      exact ⟨q, by simp [hq], hb⟩
  refine ⟨others, hdue, held, fun later' m run'' quiet ended' => ?_⟩
  rw [← hdue]
  exact run''.serves asked' quiet ended'

/-- After a step that failed, the round goes on with the slots that it has not come to. -/
theorem serves_on {reached : List Nat} (run : Course (later ++ p :: earlier) q)
    (asked : p.agenda = [.call (.drive .tick rounds) .host]) (quiet : Undisturbed later)
    (fails : q.agenda = [.conclude r k g w (.error f)]) (adv : Advanced p later q r (reached ++ [k])) {after : List Machine}
    {m : Machine} (run' : Course (after ++ q :: (later ++ p :: earlier)) m) (quiet' : Undisturbed after) (ended : m.agenda = []) :
    p.Serves r.due after m := by
  have quiet'' : Undisturbed (after ++ q :: later) := by
    intro x hx
    simp only [List.mem_append, List.mem_cons] at hx
    rcases hx with hx | rfl | hx
    · exact quiet' x hx
    · simp [fails, Reenters, Touches]
    · exact quiet x hx
  have served := serves (by simpa using run') asked quiet'' ended
  exact serves_rest adv.stepped (DrivesAux.begun_of_not_round fails (by simp)) (adv.due ▸ served)

/-- The slots that a round has not come to are as they were where the host asked for it, also once the worker of a step that failed
is gone. -/
theorem kept_of_advanced {reached : List Nat} (run : Course earlier p) (asked : p.agenda = [.call (.drive .tick rounds) .host])
    (adv : Advanced p later q r (reached ++ [k])) {j : Nat} (hj : j ∈ r.due) :
    (freed q.session.scheduler k).view j = p.session.scheduler.view j := by
  have hnodup : p.due.Nodup := Scheduler.nodup_due run.pending_nodup
  rw [adv.due] at hnodup
  have hnot : j ∉ reached ++ [k] := fun hmem => (List.nodup_append.1 hnodup).2.2 j hmem j hj rfl
  obtain ⟨w, hw⟩ := worker_of_due run asked (unbarred_of_asked run asked) (k := j) (by simp [adv.due, hj])
  exact (adv.spares.trans (spares_freed _ k) (by simp)).view j hnot (Scheduler.knows_of_worker hw)

/-- After a step that failed fatally, the slots that the round has not come to are the first ones of the next tick. -/
theorem resumes_failed {reached : List Nat} (run : Course (later ++ p :: earlier) q)
    (asked : p.agenda = [.call (.drive .tick rounds) .host]) (adv : Advanced p later q r (reached ++ [k]))
    (scheduler : (q.settle 4).session.scheduler = freed q.session.scheduler k) (ended : (q.settle 4).agenda = [])
    {between : List Machine} (passed : ∀ past, q.passed 4 past = between ++ q :: past)
    (now : ∀ x ∈ q.settle 4 :: between, x.session.now = q.session.now) (clock : ∀ x ∈ q :: later, p.session.now ≤ x.session.now) :
    p.Resumes r.due (q.settle 4 :: q.passed 4 (later ++ p :: earlier)) := by
  have run' := run.settle 4
  rw [show q.passed 4 (later ++ p :: earlier) = (between ++ q :: later) ++ p :: earlier by simp [passed]] at run' ⊢
  refine run'.resumes asked ended ?_ adv.due (fun j hj => ?_) fun j hj => scheduler ▸ kept_of_advanced run.before asked adv hj
  · intro x hx
    rw [← List.cons_append, List.mem_append] at hx
    rcases hx with hx | hx
    · exact now x hx ▸ clock q (.head _)
    · exact clock x hx
  · obtain ⟨x, hx, hbegins⟩ := begins_of_stepped adv.stepped hj
    exact ⟨x, by simp [hx], hbegins⟩

/-- A tick that is not disturbed comes to the end of a step that has failed, and the end of the worker calls nothing. The slots that
were due where the host asked for the tick are those whose workers have taken a step, in order, then this one, then those that the
round has not come to. Four tasks later the slot is free and off the list, its worker is discarded, and no other slot has changed
since the step began. After a recoverable fault the round goes on with the other slots in their order, until one fails fatally.
After a fatal fault the host is told of it, the other slots are as they were where the host asked, and the next tick begins with
them, in their order, before all others that are due. -/
theorem isolated (run : Course (later ++ p :: earlier) q) (asked : p.agenda = [.call (.drive .tick rounds) .host])
    (quiet : Undisturbed later) (fails : q.agenda = .conclude r k g w (.error f) :: rest) (silent : w.onDrop = []) :
    (∃ reached, p.due = reached ++ k :: r.due ∧ p.Stepped (reached ++ [k]) later) ∧
      q.Expels (q.settle 4) k w ∧
      (∃ b ∈ later, ∃ w₀, b.Begins k w₀ ∧ w₀.Later w ∧ b.session.scheduler.Spares (q.settle 4).session.scheduler [k]) ∧
      (f.isRecoverable = true → (q.settle 4).agenda = [.round { r with ran := r.ran + 1 }] ∧
        ∀ (after : List Machine) (m : Machine), Course (after ++ q :: (later ++ p :: earlier)) m → Undisturbed after →
          m.agenda = [] → p.Serves r.due after m) ∧
      (f.isRecoverable = false → (q.settle 4).agenda = [] ∧ (q.settle 4).reply = some (.failed f) ∧
        (∀ j ∈ r.due, (q.settle 4).session.scheduler.view j = p.session.scheduler.view j) ∧
        ((∀ x ∈ q :: later, p.session.now ≤ x.session.now) →
          p.Resumes r.due (q.settle 4 :: q.passed 4 (later ++ p :: earlier)))) := by
  obtain ⟨rfl, reached, adv, lent⟩ := ending_step run asked quiet fails
  obtain ⟨⟨between, hpassed, hnow⟩, hsettle⟩ := settle_failed fails lent.generation silent adv.host
  obtain ⟨b, hb, w₀, begins, hl, since⟩ := lent.since
  have known : q.session.scheduler.Knows k :=
    (run.known.resolve_left (not_crashed_of_agenda fails)).tasks _ (by rw [fails]; exact .head _) k rfl
  have hscheduler : (q.settle 4).session.scheduler = freed q.session.scheduler k := by rw [hsettle]
  have hview := hscheduler ▸ view_freed known
  refine ⟨⟨reached, by simpa using adv.due, adv.stepped⟩, ⟨?_, ?_, ?_, by rw [hsettle]⟩, ⟨b, hb, w₀, begins, hl, ?_⟩,
    fun hf => ⟨?_, fun after m => serves_on run asked quiet fails adv⟩, fun hf => ?_⟩
  · exact congrArg (fun v => v.1.phase) hview
  · exact (congrArg (fun v => v.1.worker) hview).trans lent.worker
  · exact List.count_eq_zero.1 (congrArg Prod.snd hview)
  · rw [hscheduler]
    exact since.trans (spares_freed _ k) (List.Subset.refl _)
  · rw [hsettle, if_pos hf]
  · have ended : (q.settle 4).agenda = [] := by simp [hsettle, hf]
    refine ⟨ended, by simp [hsettle, hf], fun j hj => ?_, resumes_failed run asked adv hscheduler ended hpassed ?_⟩
    · rw [hscheduler]
      exact kept_of_advanced run.before asked adv hj
    · intro x hx
      rcases List.mem_cons.1 hx with rfl | hx
      · rw [hsettle]
      · exact hnow x hx

end Course

end Machine

namespace IsolationAux

/-- Three places whose workers wait. The first one wants to go on at once, and the step of the second one fails. -/
def staff : List Call :=
  [.place "a", .place "b", .place "c",
    .onPlace "a" (.queue ⟨"u", [⟨[], .ok (.again 0)⟩], []⟩ 0),
    .onPlace "b" (.queue ⟨"v", [⟨[], .error (.fatal "stuck")⟩], []⟩ 0),
    .onPlace "c" (.queue ⟨"w", [⟨[], .ok .finished⟩], []⟩ 0)]

/-- The machines up to where they all wait. -/
def staffed : List Machine × Machine := Machine.talk 8 staff ([], ⟨.new .standard, [], none⟩)

/-- Where the host asks for a tick. -/
def ticked (s : Session) : Machine := Machine.ask s (.drive .tick 1)

/-- Where its round begins. -/
def opened (s : Session) (due : List Nat) : Machine := ⟨s, [.round ⟨⟨.host, .tick, s.now, 0, 0⟩, s.now, due, 0⟩], none⟩

theorem settle_ticked {s : Session} {due : List Nat} (hdue : (ticked s).due = due) (unbarred : s.scheduler.anyBarred = false) :
    (ticked s).settle 2 = opened s due := by
  have hdue : s.scheduler.due s.now = due := hdue
  simp [ticked, opened, Machine.settle, Machine.step, Machine.ask, Machine.run, Machine.perform, Machine.roundsOf,
    Machine.beginRound, Machine.push, hdue, unbarred]

/-- A tick up to so many tasks after its round has begun. -/
theorem course_ticked (run : Machine.Course past m) (idle : m.Idle) {due : List Nat} (hdue : (ticked m.session).due = due)
    (unbarred : m.session.scheduler.anyBarred = false) (budget : Nat) :
    Machine.Course ((opened m.session due).passed budget [(ticked m.session).step] ++ ticked m.session :: m :: past)
      ((opened m.session due).settle budget) := by
  have begun := (run.ask (.drive .tick 1) idle).settle_succ 1 rfl
  rw [← Machine.Course.passed_append]
  exact Machine.Course.settle (settle_ticked hdue unbarred ▸ begun) budget

/-- Whether something is left to do, and first of all nothing that is a call or that a call may leave for a slot. -/
def placid : List Task → Bool
  | [] | .call .. :: _ | .stop _ :: _ | .install .. :: _ | .seat .. :: _ => false
  | _ => true

theorem undisturbed_of_placid (h : later.all (fun q => placid q.agenda) = true) : Undisturbed later := by
  intro q hq
  have hp := List.all_eq_true.1 h q hq
  cases ha : q.agenda with
  | nil => simp [ha, placid] at hp
  | cons t rest => cases t <;> simp_all [placid, Reenters, Machine.Touches]

/-- Whether an agenda begins with the end of a step of slot `k` that has failed, in a round that is to come to some other slots, and
the end of the worker calls nothing. -/
def failing (k : Nat) (f : WorkFault) (due : List Nat) : List Task → Bool
  | .conclude r k' _ w (.error f') :: _ => decide (k' = k ∧ f' = f ∧ r.due = due) && w.onDrop.isEmpty
  | _ => false

theorem conclude_of_failing {f : WorkFault} {due : List Nat} {agenda : List Task} (h : failing k f due agenda = true) :
    ∃ r g w rest, agenda = .conclude r k g w (.error f) :: rest ∧ r.due = due ∧ w.onDrop = [] := by
  unfold failing at h
  split at h
  · next r k' g w f' rest =>
    simp only [Bool.and_eq_true, decide_eq_true_eq, List.isEmpty_iff] at h
    obtain ⟨⟨rfl, rfl, hdue⟩, hd⟩ := h
    exact ⟨r, g, w, rest, rfl, hdue, hd⟩
  · cases h

/-- Where the second step has failed. -/
def stuck : Machine := (opened staffed.2.session [0, 1, 2]).settle 6

theorem due_staffed : (ticked staffed.2.session).due = [0, 1, 2] := by
  have hpending : staffed.2.session.scheduler.pending.filter (fun k => (staffed.2.session.scheduler.slot k).isDue 0) = [0, 1, 2] := by
    decide +kernel
  have hnow : staffed.2.session.now = 0 := by decide +kernel
  rw [Machine.due, ticked, Machine.ask, Scheduler.due, hnow, hpending]
  exact List.mergeSort_of_pairwise (by decide +kernel)

theorem course_stuck : ∃ later earlier, Machine.Course (later ++ ticked staffed.2.session :: earlier) stuck ∧ Undisturbed later ∧
    ∀ x ∈ stuck :: later, (ticked staffed.2.session).session.now ≤ x.session.now := by
  have run := course_ticked ((Machine.Course.new .standard).talk 8 staff) (by decide +kernel) due_staffed (by decide +kernel) 6
  have hnow : (ticked staffed.2.session).session.now = 0 := by decide +kernel
  exact ⟨_, _, run, undisturbed_of_placid (by decide +kernel), fun x _ => hnow ▸ Nat.zero_le _⟩

/-- The slots that are due after that. -/
theorem perm_due_stuck : (ticked (stuck.settle 4).session).due.Perm [0, 2] := by
  have hpending : (stuck.settle 4).session.scheduler.pending.filter
      (fun k => ((stuck.settle 4).session.scheduler.slot k).isDue 0) = [0, 2] := by decide +kernel
  have hnow : (stuck.settle 4).session.now = 0 := by decide +kernel
  rw [Machine.due, ticked, Machine.ask, Scheduler.due, hnow, hpending]
  exact List.mergeSort_perm _ _

end IsolationAux

namespace Machine

namespace Course

/-- The second of three steps fails fatally. The third worker begins the next tick, before the first one, which was armed again. -/
theorem isolated_stuck : ∃ (later earlier later' : List Machine) (p p' m : Machine),
    Course (later ++ p :: earlier) stuck ∧ p.due = [0, 1, 2] ∧ (∃ w, stuck.Expels (stuck.settle 4) 1 w) ∧
      (stuck.settle 4).reply = some (.failed (.fatal "stuck")) ∧
      Course (later' ++ p' :: stuck.settle 4 :: stuck.passed 4 (later ++ p :: earlier)) m ∧ m.agenda = [] ∧
      (begun later').map Prod.fst = [2, 0] := by
  obtain ⟨later, earlier, run, quiet, clock⟩ := course_stuck
  obtain ⟨r, g, w, rest, fails, hr, silent⟩ := conclude_of_failing
    (by decide +kernel : failing 1 (.fatal "stuck") [2] stuck.agenda = true)
  obtain ⟨-, expels, -, -, fatal⟩ := run.isolated rfl quiet fails silent
  obtain ⟨-, reply, -, resumes⟩ := fatal rfl
  have idle : (stuck.settle 4).Idle := by decide +kernel
  have asked := (run.settle 4).ask (.drive .tick 1) idle
  have clock' : (ticked staffed.2.session).session.now ≤ (stuck.settle 4).session.now := by decide +kernel
  obtain ⟨others, hdue, -, serves⟩ := resumes clock [] (ticked (stuck.settle 4).session) 1 asked rfl (by simp) fun x hx => by
    obtain rfl := List.mem_singleton.1 hx
    exact clock'
  rw [hr] at hdue serves
  -- of the other two slots, one is left
  obtain rfl : others = [0] := by
    have perm := perm_due_stuck
    rw [hdue] at perm
    exact List.perm_singleton.1 ((List.perm_cons 2).1 (perm.trans (.swap 2 0 [])))
  have run' := course_ticked (run.settle 4) idle hdue (by decide +kernel) 20
  have ended : ((opened (stuck.settle 4).session [2, 0]).settle 20).agenda = [] := List.isEmpty_iff.1 (by decide +kernel)
  obtain ⟨reached, left, he, hstepped, hend⟩ := serves _ _ run' (undisturbed_of_placid (by decide +kernel)) ended
  have told : ((opened (stuck.settle 4).session [2, 0]).settle 20).reply = some (.report ⟨2, some 0⟩) := by decide +kernel
  obtain rfl : left = [] := by
    by_contra hne
    obtain ⟨reason, hfailed⟩ := hend hne
    cases told.symm.trans hfailed
  have hfirst := congrArg (List.map Prod.fst) hstepped
  rw [show reached = [2, 0] by simpa using he.symm] at hfirst
  exact ⟨_, _, _, _, _, _, run, due_staffed, ⟨w, expels⟩, reply, run', ended, by simpa [Function.comp_def] using hfirst⟩

end Course

end Machine

end LiveHighlight
