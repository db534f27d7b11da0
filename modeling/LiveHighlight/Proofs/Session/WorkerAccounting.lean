import LiveHighlight.Proofs.Schedule.Holders
import LiveHighlight.Proofs.Session.SlotInvariants

/-!
# Where every worker is

No worker is in two places: `Office.total` counts the slots, the tasks, the names and the ends of a worker, and never exceeds one
(`Course.single`). On a calm course no worker that was put into a slot is lost either, so it is held by the slot, taking a step
there, or was discarded once. With what `Kept` says of every slot this is `Course.accounts`.
-/

namespace LiveHighlight

/-- Whether a worker has a number. -/
def Worker.is (i : Nat) (w : Worker) : Bool := decide (w.id = i)

/-- Whether a task has a worker in hand that has a property. -/
def Task.holds (p : Worker → Bool) : Task → Bool
  | .install _ w _ | .seat _ w _ | .discard w | .conclude _ _ _ w _ | .putBack _ _ w _ => p w
  | .close _ _ c => c.returning.any p
  | _ => false

/-- How often the worker with a number is in a slot, in hand, kept under a name, or was discarded. -/
def Office.total (o : Office) (agenda : List Task) (i : Nat) : Nat :=
  o.scheduler.holders (Worker.is i) + agenda.countP (Task.holds (Worker.is i)) +
    o.workers.entries.countP (fun entry => entry.2.is i) + o.dropped.count i

namespace AccountingAux

variable {o o' : Office} {t : Task} {new : List Task}

theorem countP_cons {α : Type} (q : α → Bool) (a : α) (l : List α) : (a :: l).countP q = l.countP q + (q a).toNat := by
  cases h : q a <;> simp [h]

theorem countP_light {p : Worker → Bool} (hn : ∀ x ∈ new, x.Light o) : new.countP (Task.holds p) = 0 := by
  refine List.countP_eq_zero.2 ?_
  intro x hx
  have hl := hn x hx
  cases x with
  | discard | install | seat | conclude | close | putBack => cases hl
  | _ => simp [Task.holds]

theorem countP_insert {α : Type} (q : α → Bool) (d : Directory α) (name : String) (a : α) :
    (d.insert name a).entries.countP (fun entry => q entry.2) ≤ d.entries.countP (fun entry => q entry.2) + (q a).toNat := by
  obtain ⟨entries⟩ := d
  simp only [Directory.insert]
  induction entries with
  | nil => cases h : q a <;> simp [Directory.insertEntry, h]
  | cons entry rest ih =>
    simp only [Directory.insertEntry]
    split
    · rw [countP_cons, countP_cons]
      dsimp only
      omega
    · rw [countP_cons, countP_cons]
      omega

/-- Taking out a name takes out what it stands for. -/
theorem countP_erase {α : Type} (q : α → Bool) {d : Directory α} {name : String} {a : α} (h : d.get? name = some a) :
    (d.erase name).entries.countP (fun entry => q entry.2) + (q a).toNat ≤ d.entries.countP (fun entry => q entry.2) := by
  obtain ⟨entries⟩ := d
  simp only [Directory.get?, Directory.erase] at h ⊢
  induction entries with
  | nil => cases h
  | cons entry rest ih =>
    rw [Directory.lookup_entry] at h
    split at h
    · next he =>
      obtain rfl := Option.some.inj h
      have hs : (rest.filter fun e => decide (e.1 ≠ name)).countP (fun e => q e.2) ≤ rest.countP fun e => q e.2 :=
        List.filter_sublist.countP_le
      rw [List.filter_cons_of_neg (by simp [he]), countP_cons]
      exact Nat.add_le_add_right hs _
    · next he =>
      have hi := ih h
      rw [List.filter_cons_of_pos (by simpa using Ne.symm he), countP_cons, countP_cons]
      omega

/-- A turn hands workers on, and only a worker that is made by it is new. -/
theorem total_turn (h : Turn o t o' new) (i : Nat) :
    o'.total new i ≤ o.total [t] i + if i = o.hired then o'.hired - o.hired else 0 := by
  have later {w w' : Worker} (hl : w.Later w') : w'.is i = w.is i := by simp [Worker.is, hl.id]
  have made (body : WorkerBody) : ((⟨o.hired, body⟩ : Worker).is i).toNat = if i = o.hired then 1 else 0 := by
    by_cases hi : i = o.hired <;> simp [Worker.is, hi, eq_comm]
  cases h with
  | quiet _ hn => simp only [Office.total, countP_light hn]; omega
  | openPlace hn | attach _ hn => simp only [Office.total, countP_light hn, Scheduler.holders_add]; omega
  | dropPlace hn => simp only [Office.total, countP_light hn]; omega
  | @employ _ _ script _ _ _ _ hn =>
    have hm := made (.scripted script 0)
    simp only [Office.total, countP_cons, countP_light hn, Task.holds, Bool.toNat_false, hm]
    split <;> omega
  | engage _ hw hn =>
    have he := countP_erase (Worker.is i) hw
    simp only [Office.total, countP_cons, countP_light hn, Task.holds, Bool.toNat_false]
    omega
  | @request _ _ document job token =>
    have hm := made (.parsing document job token)
    simp only [Office.total, countP_cons, List.countP_nil, Task.holds, Bool.toNat_false, hm]
    split <;> omega
  | @keep _ worker _ _ _ _ document job token =>
    have hi := countP_insert (Worker.is i) o.workers worker ⟨o.hired, .parsing document job token⟩
    rw [made] at hi
    simp only [Office.total, List.countP_nil, Nat.add_sub_cancel_left]
    omega
  | rehearse hw hl hn =>
    have he := countP_erase (Worker.is i) hw
    simp only [Office.total, List.countP_append, countP_cons, countP_light hn, List.countP_nil, Task.holds, later hl]
    omega
  | @putBack name _ w =>
    have hi := countP_insert (Worker.is i) o.workers name w
    simp only [Office.total, countP_cons, List.countP_nil, Task.holds]
    omega
  | start => simp only [Office.total, List.countP_nil, Scheduler.holders_start]; omega
  | pause => simp only [Office.total, List.countP_nil, Scheduler.holders_pause]; omega
  | @stop slot =>
    have hs := o.scheduler.holders_stop slot (Worker.is i)
    have hd : ((o.scheduler.stop slot).2.toList.map Task.discard).countP (Task.holds (Worker.is i)) =
        ((o.scheduler.stop slot).2.any (Worker.is i)).toNat := by
      cases (o.scheduler.stop slot).2 <;> simp [countP_cons, Task.holds]
    simp only [Office.total, hd]
    omega
  | @discard w =>
    have hc : (o.dropped ++ [w.id]).count i = o.dropped.count i + (w.is i).toNat := by
      by_cases hi : w.id = i <;> simp [Worker.is, hi, List.count_append]
    simp only [Office.total, countP_cons, List.countP_nil, Task.holds, hc, Bool.toNat_false]
    omega
  | @install slot _ at_ w =>
    have hi := o.scheduler.holders_install slot (Worker.is i) w at_
    simp only [Office.total, countP_cons, List.countP_nil, Task.holds]
    omega
  | @evict slot _ _ w old _ hw =>
    have he := o.scheduler.holders_evict slot (Worker.is i)
    rw [hw, Option.any_some] at he
    simp only [Office.total, countP_cons, List.countP_nil, Task.holds]
    omega
  | @seat slot at_ w =>
    have hi := o.scheduler.holders_install slot (Worker.is i) w at_
    simp only [Office.total, countP_cons, List.countP_nil, Task.holds]
    omega
  | @pass r r' slot =>
    have hc := o.scheduler.holders_claim_le slot (Worker.is i) r.now
    simp only [Office.total, countP_cons, List.countP_nil, Task.holds]
    omega
  | work hc hl hn =>
    have hh := Scheduler.holders_claim_step (Worker.is i) hc
    simp only [Office.total, List.countP_append, countP_cons, countP_light hn, List.countP_nil, Task.holds, later hl]
    omega
  | @conclude r slot g now w outcome =>
    have hh := o.scheduler.holders_conclude slot (Worker.is i) g w outcome now
    have hd : ((o.scheduler.conclude slot g w outcome now).2.discarded.toList.map Task.discard).countP
        (Task.holds (Worker.is i)) = ((o.scheduler.conclude slot g w outcome now).2.discarded.any (Worker.is i)).toNat := by
      cases (o.scheduler.conclude slot g w outcome now).2.discarded <;> simp [countP_cons, Task.holds]
    simp only [Office.total, List.countP_append, countP_cons, List.countP_nil, Task.holds, hd]
    omega
  | @closeReturning r slot c w _ hc hn =>
    have hr := o.scheduler.holders_restore slot (Worker.is i) w
    rcases hn with rfl | ⟨r', rfl⟩ <;>
      simp only [Office.total, countP_cons, List.countP_nil, Task.holds, hc, Option.any_some, Bool.toNat_false] <;> omega
  | closeFinished _ _ hn =>
    rcases hn with rfl | ⟨r', rfl⟩ <;>
      simp only [Office.total, countP_cons, List.countP_nil, Task.holds, Scheduler.holders_delist, Bool.toNat_false] <;> omega
  | closeOpen _ _ hn | endRound _ hn =>
    rcases hn with rfl | ⟨r', rfl⟩ <;>
      simp only [Office.total, countP_cons, List.countP_nil, Task.holds, Bool.toNat_false] <;> omega
  | _ => simp only [Office.total, countP_cons, List.countP_nil, Task.holds]; omega

theorem total_append (o : Office) (new rest : List Task) (i : Nat) :
    o.total (new ++ rest) i = o.total new i + rest.countP (Task.holds (Worker.is i)) := by
  simp only [Office.total, List.countP_append]
  omega

/-- A turn makes at most one worker. -/
theorem hired_turn (h : Turn o t o' new) : o.hired ≤ o'.hired ∧ o'.hired ≤ o.hired + 1 := by
  cases h <;> simp

/-- No worker is in two places, and one that was not made yet is nowhere. -/
def Single (o : Office) (agenda : List Task) : Prop := ∀ i, o.total agenda i ≤ if i < o.hired then 1 else 0

theorem single_turn {rest : List Task} (hs : Single o (t :: rest)) (h : Turn o t o' new) : Single o' (new ++ rest) := by
  intro i
  have ht := total_turn h i
  have hi := hs i
  have hh := hired_turn h
  rw [show t :: rest = [t] ++ rest from rfl, total_append] at hi
  rw [total_append]
  by_cases h1 : i < o.hired
  · rw [if_pos h1] at hi
    rw [if_neg (Nat.ne_of_lt h1)] at ht
    rw [if_pos (by omega)]
    omega
  · rw [if_neg h1] at hi
    by_cases h2 : i = o.hired
    · rw [if_pos h2] at ht
      split <;> omega
    · rw [if_neg h2] at ht
      split <;> omega

theorem single_new (options : SchedulerOptions) : Single (Session.new options).office [] := by
  intro i
  simp [Office.total, Session.office, Session.new, Scheduler.new, Scheduler.holders, default, instInhabitedNames.default,
    Directory.empty]

theorem single_call (hs : Single o []) (c : Call) : Single o [.call c .host] :=
  fun i => by simpa [Office.total, Task.holds] using hs i

end AccountingAux

open AccountingAux

/-- No worker is ever in two places, and one that was not made yet is nowhere. -/
theorem Machine.Course.unique {past : List Machine} {m : Machine} (run : Course past m) :
    m.Crashed ∨ Single m.session.office m.agenda :=
  run.invariant (P := fun _ _ => True) (fun _ _ => trivial) single_new (fun c hs => single_call hs c)
    (fun _ hs h => single_turn hs h)

/-- No worker is ever in two places. -/
theorem Machine.Course.single {past : List Machine} {m : Machine} (run : Course past m) :
    m.Crashed ∨ ∀ i, m.session.office.total m.agenda i ≤ 1 := by
  rcases run.unique with hc | hs
  · exact .inl hc
  · refine .inr fun i => Nat.le_trans (hs i) ?_
    split <;> simp

/-! ## No worker is lost -/

/-- Whether a task has in hand a worker that was put into a slot: the worker is about to be put in, takes a step there, or is to be
discarded. -/
def Task.carries (k i : Nat) : Task → Prop
  | .install slot w _ | .conclude _ slot _ w _ => slot = k ∧ w.id = i
  | .discard w => w.id = i
  | _ => False

/-- Whether a worker that was put into a slot is accounted for. -/
def Placed (k i : Nat) (o : Office) (agenda : List Task) : Prop :=
  (o.scheduler.slot k).worker.map (·.id) = some i ∨ (∃ x ∈ agenda, x.carries k i) ∨ i ∈ o.dropped

namespace AccountingAux

variable {o o' : Office} {t : Task} {rest new : List Task} {k i : Nat}

theorem placed_of_rest {x : Task} (hx : x ∈ rest) (hc : x.carries k i) : Placed k i o' (new ++ rest) :=
  .inr (.inl ⟨x, List.mem_append_right _ hx, hc⟩)

theorem placed_of_new {x : Task} (hx : x ∈ new) (hc : x.carries k i) : Placed k i o' (new ++ rest) :=
  .inr (.inl ⟨x, List.mem_append_left _ hx, hc⟩)

/-- The workers that were discarded stay discarded. -/
theorem dropped_turn (h : Turn o t o' new) (hi : i ∈ o.dropped) : i ∈ o'.dropped := by
  cases h with
  | discard => exact List.mem_append_left _ hi
  | _ => exact hi

/-- Where a worker goes that the slot holds. -/
theorem placed_of_held (hkn : o.Known (t :: rest)) (hk : Kept k (o.scheduler.view k).1 (o.scheduler.view k).2 (t :: rest))
    {w : Worker} (hw : (o.scheduler.slot k).worker = some w) (h : Turn o t o' new) : Placed k w.id o' (new ++ rest) := by
  have hkk := Scheduler.knows_of_worker hw
  have same (hv : (o'.scheduler.view k).1.worker = (o.scheduler.view k).1.worker) : Placed k w.id o' (new ++ rest) := by
    refine .inl ?_
    rw [show (o'.scheduler.slot k).worker = (o.scheduler.slot k).worker from hv, hw]
    rfl
  have other (hv : o'.scheduler.view k = o.scheduler.view k) : Placed k w.id o' (new ++ rest) := same (by rw [hv])
  cases h with
  | openPlace | attach =>
    refine other ?_
    rw [Scheduler.view_add, if_neg (Nat.ne_of_lt hkk)]
  | @start _ _ slot =>
    rcases eq_or_ne k slot with rfl | hne
    · refine same ?_
      rw [Scheduler.view_start hkk]
      split <;> rfl
    · exact other (Scheduler.view_start_ne hne _)
  | @pause _ _ slot =>
    rcases eq_or_ne k slot with rfl | hne
    · refine same ?_
      rw [Scheduler.view_pause hkk]
      split <;> rfl
    · exact other (Scheduler.view_pause_ne hne)
  | @stop slot =>
    rcases eq_or_ne k slot with rfl | hne
    · refine placed_of_new (x := .discard w) ?_ rfl
      rw [Scheduler.stop_snd, hw]
      simp
    · exact other (Scheduler.view_stop_ne hne)
  | @install slot _ _ _ _ hempty =>
    rcases eq_or_ne k slot with rfl | hne
    · rw [hw] at hempty
      cases hempty
    · exact other (Scheduler.view_install_ne hne _ _)
  | @evict slot _ _ _ old _ hold =>
    rcases eq_or_ne k slot with rfl | hne
    · rw [hw] at hold
      obtain rfl := Option.some.inj hold
      exact placed_of_new (x := .discard w) (by simp) rfl
    · exact other (Scheduler.view_evict_ne hne)
  | @seat slot =>
    rcases eq_or_ne k slot with rfl | hne
    · rcases hk.stage.head (by simp [Task.settles]) with ⟨_, _, ht, _⟩ | ⟨_, _, ht, _⟩ <;> cases ht
    · exact other (Scheduler.view_install_ne hne _ _)
  | @pass r _ slot hc =>
    refine other ?_
    rcases eq_or_ne k slot with rfl | hne
    · by_cases hd : (o.scheduler.slot k).isDue r.now
      · exact absurd (by simp [Scheduler.claim, hd, hw]) (hc w (o.scheduler.slot k).generation)
      · rw [Scheduler.view_claim hkk, if_neg hd]
    · exact Scheduler.view_claim_ne hne _
  | @work r r' slot g w' w'' outcome _ hc hl =>
    rcases eq_or_ne k slot with rfl | hne
    · obtain ⟨-, hw', -⟩ := Scheduler.claim_step hc
      obtain rfl := Option.some.inj (hw.symm.trans hw')
      exact placed_of_new (x := .conclude r' k g w'' outcome) (by simp) ⟨rfl, hl.id⟩
    · exact other (Scheduler.view_claim_ne hne _)
  | @conclude r slot g now w' outcome =>
    rcases eq_or_ne k slot with rfl | hne
    · refine other (Scheduler.view_conclude_stale ?_ _ _ _)
      intro hg
      have hempty := ((hk.lent r g w' outcome (.head _)).2.2 hg.symm).2
      rw [show (o.scheduler.view k).1.worker = some w from hw] at hempty
      cases hempty
    · exact other (Scheduler.view_conclude_ne hne _ _ _ _)
  | @closeReturning r slot c _ _ hc =>
    rcases eq_or_ne k slot with rfl | hne
    · rcases hk.stage.head (by simp [Task.settles]) with ⟨_, _, ht, _⟩ | ⟨_, _, ht, hnone⟩
      · cases ht
      · cases ht
        rw [hnone] at hc
        cases hc
    · exact other (Scheduler.view_restore_ne hne _)
  | @closeFinished r slot =>
    rcases eq_or_ne k slot with rfl | hne
    · exact same (by rw [Scheduler.view_delist]; rfl)
    · exact other (Scheduler.view_delist_ne hne)
  | _ => exact other rfl

/-- Where a worker goes that the first task has in hand. -/
theorem placed_of_carried (hkn : o.Known (t :: rest)) (hk : Kept k (o.scheduler.view k).1 (o.scheduler.view k).2 (t :: rest))
    (hc : t.carries k i) (h : Turn o t o' new) : Placed k i o' (new ++ rest) := by
  cases t with
  | install slot w delay =>
    obtain ⟨rfl, rfl⟩ := hc
    have hempty : (o.scheduler.slot slot).worker = none := by
      rcases hk.stage.head (by simp [Task.settles]) with ⟨_, _, -, hw⟩ | ⟨_, _, ht, _⟩
      · exact hw
      · cases ht
    cases h with
    | quiet hq => cases hq
    | install =>
      refine .inl ?_
      rw [show ((o.scheduler.install slot w _).slot slot) = _ from
        congrArg Prod.fst (Scheduler.view_install (hkn.tasks _ (.head _) slot rfl) w _)]
      rfl
    | evict _ hold =>
      rw [hempty] at hold
      cases hold
  | conclude r slot g w outcome =>
    obtain ⟨rfl, rfl⟩ := hc
    have hkk := hkn.tasks _ (.head _) slot rfl
    cases h with
    | quiet hq => cases hq
    | @conclude _ _ _ now =>
      by_cases hg : g = (o.scheduler.slot slot).generation
      · have hempty : (o.scheduler.slot slot).worker = none := ((hk.lent r g w outcome (.head _)).2.2 hg).2
        subst hg
        rcases outcome with fault | ⟨delay⟩ | -
        · exact placed_of_new (x := .discard w) (by simp [Scheduler.conclude]) rfl
        · refine .inl ?_
          rw [show ((o.scheduler.conclude slot _ w (.ok (.again delay)) now).1.slot slot) = _ from
            congrArg Prod.fst (Scheduler.view_conclude_again hkk w delay now hempty)]
          rfl
        · exact placed_of_new (x := .discard w) (by simp [Scheduler.conclude]) rfl
      · exact placed_of_new (x := .discard w) (by simp [Scheduler.conclude, Ne.symm hg]) rfl
  | discard w =>
    obtain rfl := hc
    cases h with
    | quiet hq => cases hq
    | discard => exact .inr (.inr (by simp))
  | _ => cases hc

end AccountingAux

/-- A turn loses no worker that was put into a slot on a course that is calm about it. -/
theorem Turn.placed {o o' : Office} {t : Task} {rest new : List Task} {k i : Nat} (hkn : o.Known (t :: rest))
    (hk : Kept k (o.scheduler.view k).1 (o.scheduler.view k).2 (t :: rest)) (hp : Placed k i o (t :: rest))
    (h : Turn o t o' new) : Placed k i o' (new ++ rest) := by
  rcases hp with hw | ⟨x, hx, hc⟩ | hd
  · obtain ⟨w, hheld, rfl⟩ := Option.map_eq_some_iff.1 hw
    exact placed_of_held hkn hk hheld h
  · rcases List.mem_cons.1 hx with rfl | hx
    · exact placed_of_carried hkn hk hc h
    · exact placed_of_rest hx hc
  · exact .inr (.inr (dropped_turn h hd))

/-! ## The accounts of a calm course -/

namespace Machine

/-- Whether code of the host can see the session: it is about to make a call, or nothing is left to do. -/
def Visible (m : Machine) : Prop :=
  match m.agenda with
  | [] | .call .. :: _ | .script (_ :: _) :: _ => True
  | _ => False

instance (m : Machine) : Decidable m.Visible :=
  decidable_of_iff (m.agenda.head?.all (fun
    | .call .. | .script (_ :: _) => true
    | _ => false) = true) (by
    unfold Visible
    cases m.agenda with
    | nil => simp
    | cons x rest =>
      cases x with
      | script calls => cases calls <;> simp
      | _ => simp)

theorem Idle.visible {m : Machine} (h : m.Idle) : m.Visible := by
  simp [Visible, h.1]

/-- Whether a slot holds the worker with a number. -/
def Holds (m : Machine) (k i : Nat) : Prop := ∃ w, (m.session.scheduler.slot k).worker = some w ∧ w.id = i

/-- Whether the worker with a number takes a step at a slot. -/
def Steps (m : Machine) (k i : Nat) : Prop := ∃ r g w outcome, .conclude r k g w outcome ∈ m.agenda ∧ w.id = i

/-- How often the worker with a number was discarded. -/
def drops (m : Machine) (i : Nat) : Nat := m.session.journal.toList.countP fun e => decide (e.discarded? = some i)

/-- The worker with a number is held by the slot, takes a step there, or was discarded, once, and no other slot has it. -/
structure Keeps (m : Machine) (k i : Nat) : Prop where
  once : m.Holds k i ∧ ¬ m.Steps k i ∧ m.drops i = 0 ∨ ¬ m.Holds k i ∧ m.Steps k i ∧ m.drops i = 0 ∨
    ¬ m.Holds k i ∧ ¬ m.Steps k i ∧ m.drops i = 1
  nowhere : ∀ k', k' ≠ k → ¬ m.Holds k' i ∧ ¬ m.Steps k' i

/-- Slots in use are on the list of pending ones once, free slots are not, and between calls free slots are the empty ones. -/
structure Accounts (m : Machine) : Prop where
  listed : ∀ k, m.session.scheduler.pending.count k = if (m.session.scheduler.slot k).phase = .free then 0 else 1
  pending : m.session.scheduler.pending.length = m.session.scheduler.slots.countP fun slot => !slot.isFree
  empty : m.agenda = [] → ∀ k, (m.session.scheduler.slot k).phase = .free ↔ (m.session.scheduler.slot k).worker = none

end Machine

namespace AccountingAux

variable {o o' : Office} {t : Task} {rest new : List Task} {past : List Machine} {m : Machine} {k k' i : Nat}

/-- A worker that is to be discarded is discarded at once. -/
def Prompt (agenda : List Task) : Prop := ∀ x ∈ agenda.tail, ∀ w, x ≠ .discard w

theorem discard_of_light {x : Task} (h : x.Light o) (w : Worker) : x ≠ .discard w := by
  rintro rfl
  cases h

theorem prompt_turn (hp : Prompt (t :: rest)) (h : Turn o t o' new) : Prompt (new ++ rest) := by
  have hnew : ∀ x ∈ new.tail, ∀ w, x ≠ .discard w := by
    intro x hx w
    cases h with
    | quiet _ hn | openPlace hn | dropPlace hn | attach _ hn => exact discard_of_light (hn x (List.mem_of_mem_tail hx)) w
    | employ _ hn | engage _ _ hn =>
      rcases List.mem_cons.1 hx with rfl | hx
      · simp
      · exact discard_of_light (hn x hx) w
    | rehearse _ _ hn | work _ _ hn =>
      rcases List.mem_append.1 (List.mem_of_mem_tail hx) with hx | hx
      · exact discard_of_light (hn x hx) w
      · obtain rfl := List.mem_singleton.1 hx
        simp
    | @stop slot =>
      cases hw : (o.scheduler.stop slot).2 <;> simp [hw] at hx
    | @conclude r slot g now w' outcome =>
      cases hw : (o.scheduler.conclude slot g w' outcome now).2.discarded <;> simp [hw] at hx
      subst hx
      simp
    | endRound _ hn | closeReturning _ hn | closeFinished _ _ hn | closeOpen _ _ hn =>
      rcases hn with rfl | ⟨d, rfl⟩ <;> cases hx
    | request | evict =>
      obtain rfl := List.mem_singleton.1 hx
      simp
    | _ => cases hx
  intro x hx
  cases new with
  | nil => exact hp x (List.mem_of_mem_tail hx)
  | cons y new =>
    rcases List.mem_append.1 hx with hx | hx
    · exact hnew x hx
    · exact hp x hx

/-- What is known of a calm course. -/
structure Calmed (o : Office) (agenda : List Task) : Prop where
  calmly : ∀ k, Calmly k o agenda
  single : Single o agenda
  prompt : Prompt agenda

theorem calmed (run : Machine.Course past m) (calm : ∀ p ∈ past, ∀ k, Calm k p.agenda) :
    m.reply ≠ some .crashed ∧ Calmed m.session.office m.agenda :=
  run.invariant_of_unbarred (P := fun _ agenda => ∀ k, Calm k agenda) calm
    (fun options => ⟨fun k => calmly_new k options, single_new options, by simp [Prompt]⟩)
    (fun c hi => ⟨fun k => (hi.calmly k).call c, single_call hi.single c, by simp [Prompt]⟩)
    (fun hc hi h => ⟨fun k => h.calmly (hc k) (hi.calmly k), single_turn hi.single h, prompt_turn hi.prompt h⟩)
    (fun hi slot => (hi.calmly slot).kept.unbarred)

/-- A worker that was put into a slot at some time of a calm course is accounted for ever after. -/
theorem placed_of_passed (run : Machine.Course past m) (calm : ∀ p ∈ past, ∀ k, Calm k p.agenda) {p : Machine}
    (hp : p ∈ m :: past) (h : Placed k i p.session.office p.agenda) : Placed k i m.session.office m.agenda := by
  induction run with
  | new options =>
    obtain rfl := List.mem_singleton.1 hp
    exact h
  | ask c run idle ih =>
    rcases List.mem_cons.1 hp with rfl | hp
    · exact h
    · rcases ih (fun q hq => calm q (.tail _ hq)) hp with hw | ⟨x, hx, -⟩ | hd
      · exact .inl hw
      · rw [idle.1] at hx
        cases hx
      · exact .inr (.inr hd)
  | @step past m t rest run ha ih =>
    rcases List.mem_cons.1 hp with rfl | hp
    · exact h
    · have hm := ih (fun q hq => calm q (.tail _ hq)) hp
      have hi := (calmed run fun q hq => calm q (.tail _ hq)).2
      rcases run.turn ha with ⟨-, slot, hb⟩ | ⟨new, hn, hturn, -⟩
      · exact absurd hb (by simpa [Session.office, Scheduler.view] using (hi.calmly slot).kept.unbarred)
      · rw [ha] at hm hi
        rw [hn]
        exact hturn.placed (hi.calmly k).known (hi.calmly k).kept hm

/-- Where code of the host can see the session, nothing is to be done first that belongs to a round, stops, fills or closes a slot,
or discards a worker. -/
theorem head_of_visible {t : Task} {rest : List Task} (ha : m.agenda = t :: rest) (seen : m.Visible) :
    (∀ k, t ≠ .stop k) ∧ t.isSilent = false ∧ (∀ k, t.settles k = false) ∧ t.isRound = false ∧ ∀ w, t ≠ .discard w := by
  simp only [Machine.Visible, ha] at seen
  split at seen
  · contradiction
  · next hcons =>
    cases hcons
    simp [Task.isSilent, Task.settles, Task.isRound]
  · next hcons =>
    cases hcons
    simp [Task.isSilent, Task.settles, Task.isRound]
  · cases seen

/-- Where code of the host can see the session, no change of a slot is under way and no worker is to be discarded. -/
theorem steady_of_visible (hi : Calmed m.session.office m.agenda) (seen : m.Visible) :
    (∀ k, ∀ x ∈ m.agenda, x.settles k = false) ∧ ∀ x ∈ m.agenda, ∀ w, x ≠ .discard w := by
  cases ha : m.agenda with
  | nil => simp
  | cons t rest =>
    rw [ha] at hi
    obtain ⟨hstop, hsilent, hsettles, -, hdiscard⟩ := head_of_visible ha seen
    refine ⟨fun k => (hi.calmly k).kept.stage.steady_of_head (hstop k) hsilent (hsettles k), ?_⟩
    intro x hx w
    rcases List.mem_cons.1 hx with rfl | hx
    · exact hdiscard w
    · exact hi.prompt x hx w

theorem drops_eq (m : Machine) (i : Nat) : m.drops i = m.session.office.dropped.count i := by
  simp only [Machine.drops, Session.office, List.count, List.countP_filterMap]
  refine List.countP_congr ?_
  intro e _
  cases e.discarded? <;> simp

theorem one_le_holders (h : m.Holds k i) : 1 ≤ m.session.scheduler.holders (Worker.is i) := by
  obtain ⟨w, hw, hi⟩ := h
  have he := m.session.scheduler.holders_evict k (Worker.is i)
  rw [hw] at he
  simp only [Option.any_some, Worker.is, hi, decide_true, Bool.toNat_true] at he
  omega

/-- Two slots that hold the same worker are two places. -/
theorem two_le_holders (h : m.Holds k i) (h' : m.Holds k' i) (hne : k' ≠ k) :
    2 ≤ m.session.scheduler.holders (Worker.is i) := by
  obtain ⟨w, hw, hi⟩ := h
  obtain ⟨w', hw', hi'⟩ := h'
  have he := m.session.scheduler.holders_evict k (Worker.is i)
  have he' := (m.session.scheduler.evict k).holders_evict k' (Worker.is i)
  rw [hw] at he
  rw [show ((m.session.scheduler.evict k).slot k') = m.session.scheduler.slot k' from
    congrArg Prod.fst (Scheduler.view_evict_ne hne), hw'] at he'
  simp only [Option.any_some, Worker.is, hi, hi', decide_true, Bool.toNat_true] at he he'
  omega

theorem one_le_steps (h : m.Steps k i) : 1 ≤ m.agenda.countP (Task.holds (Worker.is i)) := by
  obtain ⟨r, g, w, outcome, hx, hi⟩ := h
  exact List.countP_pos_iff.2 ⟨_, hx, by simp [Task.holds, Worker.is, hi]⟩

/-- Only one worker takes a step. -/
theorem steps_unique (ho : Orderly m.agenda) {j : Nat} (h : m.Steps k i) (h' : m.Steps k' j) : k' = k := by
  obtain ⟨r, g, w, outcome, hx, -⟩ := h
  obtain ⟨r', g', w', outcome', hx', -⟩ := h'
  have last {x : Task} (hx : x ∈ m.agenda) (hr : x.isRound = true) : m.agenda.getLast? = some x := by
    obtain ⟨pre, last, ha⟩ := List.eq_nil_or_concat m.agenda |>.resolve_left (List.ne_nil_of_mem hx)
    have hd := ho.rounds x
    rw [ha, List.concat_eq_append, List.dropLast_concat] at hd
    rw [ha, List.concat_eq_append, List.mem_append, List.mem_singleton] at hx
    rcases hx with hx | rfl
    · rw [hd hx] at hr
      cases hr
    · simp [ha]
  have he := (last hx rfl).symm.trans (last hx' rfl)
  cases Option.some.inj he
  rfl

/-- A list of slots that has the ones in use once is as long as there are slots in use. -/
theorem length_pending {s : Scheduler Worker} (h : ∀ k, s.pending.count k = if (s.slot k).phase = .free then 0 else 1) :
    s.pending.length = s.slots.countP fun slot => !slot.isFree := by
  have hslots : s.slots = (List.range s.slots.length).map s.slot := by
    refine List.ext_getElem (by simp) ?_
    intro n hn _
    simp [Scheduler.slot, List.getElem?_eq_getElem hn]
  have hperm : s.pending.Perm ((List.range s.slots.length).filter fun k => !(s.slot k).isFree) := by
    refine List.perm_iff_count.2 ?_
    intro k
    rw [h k]
    by_cases hf : (s.slot k).phase = .free
    · rw [if_pos hf, eq_comm, List.count_eq_zero]
      simp [Slot.isFree, hf]
    · have hk : k < s.slots.length := Scheduler.knows_of_phase hf
      rw [if_neg hf, List.count_filter (by simp [Slot.isFree, hf]), List.count_range, if_pos hk]
  rw [hperm.length_eq, ← List.countP_eq_length_filter]
  conv_rhs => rw [hslots, List.countP_map]
  rfl

theorem accounts_of_calmed (hi : Calmed m.session.office m.agenda) (hs : ∀ k, ∀ x ∈ m.agenda, x.settles k = false) :
    m.Accounts := by
  have hlisted (k : Nat) :
      m.session.scheduler.pending.count k = if (m.session.scheduler.slot k).phase = .free then 0 else 1 := by
    have hk := (hi.calmly k).kept
    split
    · next hf => exact SlotInvariantAux.count_of_steady hk (hs k) hf
    · next hf => exact hk.listed hf
  refine ⟨hlisted, length_pending hlisted, ?_⟩
  intro ha k
  have hk := (hi.calmly k).kept
  constructor
  · intro hf
    by_contra hw
    obtain ⟨w, hw⟩ := Option.ne_none_iff_exists'.1 hw
    exact (hk.seated w hw).1 hf
  · intro hw
    by_contra hf
    obtain ⟨r, w, outcome, hx⟩ := hk.used hf hw
    rw [ha] at hx
    cases hx

theorem keeps_of_placed (hi : Calmed m.session.office m.agenda) (hs : ∀ k, ∀ x ∈ m.agenda, x.settles k = false)
    (hd : ∀ x ∈ m.agenda, ∀ w, x ≠ .discard w) (hp : Placed k i m.session.office m.agenda) : m.Keeps k i := by
  have htotal : m.session.scheduler.holders (Worker.is i) + m.agenda.countP (Task.holds (Worker.is i)) + m.drops i ≤ 1 := by
    have ht := hi.single i
    have h1 : (if i < m.session.office.hired then 1 else 0) ≤ 1 := by split <;> simp
    simp only [Office.total, ← drops_eq] at ht
    have he : m.session.office.scheduler = m.session.scheduler := rfl
    rw [he] at ht
    omega
  have held {j : Nat} (h : m.Holds j i) := one_le_holders h
  have stepping {j : Nat} (h : m.Steps j i) := one_le_steps h
  rcases hp with hw | ⟨x, hx, hc⟩ | hdrop
  · obtain ⟨w, hheld, rfl⟩ := Option.map_eq_some_iff.1 hw
    have hh : m.Holds k w.id := ⟨w, hheld, rfl⟩
    have h1 := held hh
    refine ⟨.inl ⟨hh, ?_, by omega⟩, fun k' hne => ⟨?_, ?_⟩⟩
    · intro h
      have := stepping h
      omega
    · intro h
      have := two_le_holders hh h hne
      omega
    · intro h
      have := stepping h
      omega
  · have hst : m.Steps k i := by
      cases x with
      | install slot w delay =>
        obtain ⟨rfl, -⟩ := hc
        exact absurd (hs slot _ hx) (by simp [Task.settles])
      | conclude r slot g w outcome =>
        obtain ⟨rfl, hw⟩ := hc
        exact ⟨r, g, w, outcome, hx, hw⟩
      | discard w => exact absurd rfl (hd _ hx w)
      | _ => cases hc
    have h1 := stepping hst
    refine ⟨.inr (.inl ⟨?_, hst, by omega⟩), fun k' hne => ⟨?_, ?_⟩⟩
    · intro h
      have := held h
      omega
    · intro h
      have := held h
      omega
    · intro h
      exact hne (steps_unique (hi.calmly k).orderly hst h)
  · have h1 : 1 ≤ m.drops i := by
      rw [drops_eq]
      exact List.one_le_count_iff.2 hdrop
    refine ⟨.inr (.inr ⟨?_, ?_, by omega⟩), fun k' _ => ⟨?_, ?_⟩⟩
    · intro h
      have := held h
      omega
    · intro h
      have := stepping h
      omega
    · intro h
      have := held h
      omega
    · intro h
      have := stepping h
      omega

end AccountingAux

/-- The accounts are in order wherever code of the host can see a calm course, and every worker that was ever put into a slot is
held by the slot, takes a step there, or was discarded once. -/
theorem Machine.Course.accounts {past : List Machine} {m : Machine} (run : Course past m)
    (calm : ∀ p ∈ past, ∀ k, Calm k p.agenda) (seen : m.Visible) :
    m.Accounts ∧ ∀ p ∈ m :: past, ∀ k w delay, .install k w delay ∈ p.agenda → m.Keeps k w.id := by
  have hi := (calmed run calm).2
  obtain ⟨hs, hd⟩ := steady_of_visible hi seen
  refine ⟨accounts_of_calmed hi hs, fun p hp k w delay hx => keeps_of_placed hi hs hd ?_⟩
  exact placed_of_passed run calm hp (.inr (.inl ⟨_, hx, rfl, rfl⟩))

namespace AccountingAux

variable {past : List Machine} {m : Machine} {i : Nat}

/-- A place whose worker pauses the place in its step and then queues another worker there. -/
def replacing : List Call :=
  [.place "p",
    .onPlace "p" (.queue ⟨"v", [⟨[.onPlace "p" .pause, .onPlace "p" (.queue ⟨"w", [⟨[], .ok (.again 5)⟩], []⟩ 0)],
      .ok (.again 0)⟩], []⟩ 0)]

/-- The machines up to where the first worker waits. -/
def poised : List Machine × Machine := Machine.talk 8 replacing ([], ⟨.new .standard, [], none⟩)

/-- Where it has paused its place and has not queued the other worker yet. -/
def amid : Machine := (Machine.ask poised.2.session (.drive .tick 1)).settle 5

/-- Whether a worker with a number was put into the first slot. -/
def installed (i : Nat) (past : List Machine) : Bool :=
  past.any fun q => q.agenda.any fun
    | .install k w _ => decide (k = 0 ∧ w.id = i)
    | _ => false

theorem keeps_of_installed (h : ∀ p ∈ m :: past, ∀ k w delay, .install k w delay ∈ p.agenda → m.Keeps k w.id)
    (hi : installed i past = true) : m.Keeps 0 i := by
  obtain ⟨p, hp, hany⟩ := List.any_eq_true.1 hi
  obtain ⟨x, hx, hw⟩ := List.any_eq_true.1 hany
  cases x with
  | install k w delay =>
    obtain ⟨rfl, rfl⟩ := of_decide_eq_true hw
    exact h p (.tail _ hp) 0 w delay hx
  | _ => cases hw

/-- Whether a worker with a number takes a step at the first slot. -/
def stepping (i : Nat) (agenda : List Task) : Bool :=
  agenda.any fun
    | .conclude _ k _ w _ => decide (k = 0 ∧ w.id = i)
    | _ => false

theorem steps_of_stepping (h : stepping i m.agenda = true) : m.Steps 0 i := by
  obtain ⟨x, hx, hw⟩ := List.any_eq_true.1 h
  cases x with
  | conclude r k g w outcome =>
    obtain ⟨rfl, rfl⟩ := of_decide_eq_true hw
    exact ⟨r, g, w, outcome, hx, rfl⟩
  | _ => cases hw

end AccountingAux

/-- A worker that is replaced by another one in its own step: amid the step, with the place paused, and when all is done. -/
theorem Machine.Course.accounts_replaced : ∃ (later earlier : List Machine) (p m : Machine), Course (later ++ p :: earlier) m ∧
    p.Visible ∧ (p.session.scheduler.slot 0).phase = .paused ∧ p.Steps 0 0 ∧ p.Accounts ∧ p.Keeps 0 0 ∧
    m.Idle ∧ m.drops 0 = 1 ∧ m.Holds 0 1 ∧ m.Accounts ∧ m.Keeps 0 0 ∧ m.Keeps 0 1 := by
  have waited : Course poised.1 poised.2 := (Course.new .standard).talk 8 replacing
  have before := (waited.ask (.drive .tick 1) (by decide +kernel)).settle 5
  have run := before.settle_succ 59 (by decide +kernel)
  have seen : amid.Visible := by decide +kernel
  have steps : amid.Steps 0 0 := steps_of_stepping (by decide +kernel)
  have idle : (amid.settle 60).Idle := by decide +kernel
  have holds : (amid.settle 60).Holds 0 1 := Option.map_eq_some_iff.1 (show
    ((amid.settle 60).session.scheduler.slot 0).worker.map (·.id) = some 1 by decide +kernel)
  obtain ⟨haccounts, hkeeps⟩ := before.accounts (calm_of_all (by decide +kernel)) seen
  obtain ⟨haccounts', hkeeps'⟩ := run.accounts (calm_of_all (by decide +kernel)) idle.visible
  exact ⟨_, _, amid, _, run, seen, by decide +kernel, steps, haccounts, keeps_of_installed hkeeps (by decide +kernel),
    idle, by decide +kernel, holds, haccounts', keeps_of_installed hkeeps' (by decide +kernel),
    keeps_of_installed hkeeps' (by decide +kernel)⟩

end LiveHighlight
