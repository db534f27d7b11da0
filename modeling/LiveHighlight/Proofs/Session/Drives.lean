import LiveHighlight.Proofs.Session.Faults

/-!
# The course of a drive

While no code that the host lent lets work run, the agenda of a drive that the host asked for ends with the one task that belongs
to the drive, and has other tasks before it only during a step (`Machine.Goes`). `Course.driven` is the induction along such a
drive: what is true of that task when the drive begins, and is kept both by the tasks before it and by the beats of the drive,
holds until the drive returns.
-/

namespace LiveHighlight

open OrderlyAux

/-- Where a task of a drive, the only one left to do, leads to. -/
inductive Machine.Goes (s : Session) (x : Task) (n : Machine) : Prop where
  | crashed (hc : n.Crashed)
  /-- The drive is over. -/
  | returned (ha : n.agenda = [])
  /-- The next task of the drive comes last, and other tasks come before it only during a step. -/
  | on (pre : List Task) (x' : Task) (ha : n.agenda = pre ++ [x']) (plain : ∀ y ∈ pre, Plain y)
      (step : pre = [] ∨ x'.slot? ≠ none) (hr : x'.isRound = true) (beat : Beat s x x')

namespace DrivesAux

variable {m : Machine} {s : Session} {x : Task}

theorem goes_alone {x' : Task} (ha : m.agenda = [x']) (hr : x'.isRound = true) (hb : Beat s x x') : m.Goes s x :=
  .on [] x' ha (by simp) (.inl rfl) hr hb

theorem goes_answer (ha : m.agenda = []) (asker : Asker) (r : Reply) : (m.answer asker r).Goes s x :=
  .returned (by rw [RoundProgressAux.agenda_answer, ha])

theorem goes_beginRound (ha : m.agenda = []) (d : Drive) : (m.beginRound d).Goes m.session (.beginRound d) := by
  unfold Machine.beginRound
  split
  · exact goes_answer ha _ _
  · next hd =>
    split
    · exact .crashed ⟨rfl, rfl⟩
    · next hb => exact goes_alone (by rw [Machine.push, ha]; rfl) rfl (.begun hd (by simpa using hb))

theorem goes_round (ha : m.agenda = []) (r : Round) : (m.round r).Goes m.session (.round r) := by
  unfold Machine.round
  split
  · next hdue =>
    unfold Machine.endRound
    dsimp only
    split
    · next hg =>
      simp only [Machine.goesOn, decide_eq_true_eq] at hg
      exact goes_alone (by rw [Machine.push, ha]; rfl) rfl (.again hdue hg.2.1)
    · exact goes_answer ha _ _
  · next slot due hdue =>
    dsimp only
    split
    · next scheduler w g heq =>
      obtain ⟨w', outcome, s, new, h, -, hl, hn⟩ :=
        OfficeAux.work_spec (m.schedule scheduler) w (.conclude { r with due } slot g)
      rw [h]
      refine .on new (.conclude { r with due } slot g w' outcome) ?_ (fun y hy => plain_of_light (hn y hy)) (.inr (by simp [Task.slot?]))
        rfl (.stepped hdue (by rw [heq]) hl)
      simp [Machine.push, Machine.put, Machine.schedule, ha]
    · next scheduler _ hne heq =>
      have hc : ∀ w g, (m.session.scheduler.claim slot r.now).2 ≠ .step w g := by
        intro w g hw
        rw [heq] at hw
        exact hne w g hw
      exact goes_alone (by simp [Machine.push, Machine.schedule, Machine.put, ha]) rfl (.passed hdue hc)

theorem goes_conclude (ha : m.agenda = []) (r : Round) (slot g : Nat) (w : Worker) (outcome : Outcome) :
    (m.conclude r slot g w outcome).Goes m.session (.conclude r slot g w outcome) := by
  refine .on _ _ (by simp [Machine.conclude, Machine.push, Machine.schedule, Machine.put, ha]; rfl) ?_ (.inr (by simp [Task.slot?]))
    rfl .concluded
  intro y hy
  obtain ⟨old, -, rfl⟩ := List.mem_map.1 hy
  exact ⟨rfl, by simp⟩

theorem goes_close (ha : m.agenda = []) (r : Round) (slot : Nat) (c : Conclusion Worker) :
    (m.close r slot c).Goes m.session (.close r slot c) := by
  obtain ⟨m', hs, hclose⟩ := m.close_cases r slot c
  have ha' : m'.agenda = [] := by cases hs <;> exact ha
  rcases hclose with ⟨reason, -, he⟩ | ⟨hf, he⟩
  · rw [he]
    exact goes_answer ha' _ _
  · rw [he]
    exact goes_alone (by rw [Machine.push, ha']; rfl) rfl (.closed hf)

/-! ### The end of a drive -/

variable {q : Machine} {rest : List Task} {d : Drive}

/-- Only a round begins steps. -/
theorem begun_of_not_round (ha : q.agenda = x :: rest) (hx : ∀ r, x ≠ .round r) : q.begun? = none := by
  unfold Machine.begun?
  rw [ha]
  split
  · next h =>
    obtain ⟨rfl, -⟩ := List.cons.inj h
    exact absurd rfl (hx _)
  · rfl

/-- A drive that ends before a round has no round left. -/
theorem left_of_over (hm : m = Machine.beginRound { q with agenda := [] } d) (hnil : m.agenda = []) (host : d.asker = .host)
    (alive : m.reply ≠ some .crashed) : d.left = 0 ∧ m.reply = some (d.reply none) := by
  subst hm
  unfold Machine.beginRound at *
  split at alive
  · next hleft => exact ⟨hleft, by rw [if_pos hleft, host]; rfl⟩
  · next hleft =>
    rw [if_neg hleft] at hnil
    split at alive
    · exact absurd rfl alive
    · next hbar =>
      rw [if_neg hbar] at hnil
      cases hnil

/-- A drive goes no further after a round that began no step, was the last one or left no time. -/
theorem goesOn_eq_false {ran : Nat} : q.goesOn d ran = false ↔ ran = 0 ∨ d.left = 0 ∨
    d.kind = .slice ∧ q.session.scheduler.options.timeSlice ≤ q.session.now - d.started := by
  simp only [Machine.goesOn, decide_eq_false_iff_not, not_and_or, not_not, Classical.not_imp, Nat.not_lt, ne_eq]

/-- A drive that ends in a round has come to the end of the round, and no other round follows. -/
theorem due_of_over {r : Round} (hm : m = Machine.round { q with agenda := [] } r) (hnil : m.agenda = [])
    (host : r.drive.asker = .host) : r.due = [] ∧ m.session = q.session ∧
      q.goesOn { r.drive with ran := r.drive.ran + r.ran } r.ran = false ∧
      m.reply = some (Drive.reply { r.drive with ran := r.drive.ran + r.ran } (q.session.scheduler.nextWait q.session.now)) := by
  subst hm
  unfold Machine.round at *
  split at hnil
  · next hdue =>
    unfold Machine.endRound at *
    dsimp only at hnil ⊢
    split at hnil
    · cases hnil
    · next hgoes =>
      have hgoes' : q.goesOn { r.drive with ran := r.drive.ran + r.ran } r.ran = false := by
        simpa [Machine.goesOn] using hgoes
      rw [if_neg hgoes, host]
      exact ⟨hdue, rfl, hgoes', rfl⟩
  · next slot due hdue =>
    dsimp only at hnil
    split at hnil
    · next scheduler w g _ =>
      obtain ⟨w', outcome, s, new, h, -, -, -⟩ :=
        OfficeAux.work_spec (Machine.schedule { q with agenda := [] } scheduler) w (.conclude { r with due } slot g)
      rw [h] at hnil
      simp [Machine.push] at hnil
    · cases hnil

/-- A step that closes a drive has failed fatally. -/
theorem failed_of_over {r : Round} {slot : Nat} {c : Conclusion Worker} (hm : m = Machine.close { q with agenda := [] } r slot c)
    (hnil : m.agenda = []) (host : r.drive.asker = .host) :
    ∃ reason, m.reply = some (.failed (.fatal reason)) := by
  obtain ⟨m', -, hclose⟩ := Machine.close_cases { q with agenda := [] } r slot c
  rcases hclose with ⟨reason, -, he⟩ | ⟨-, he⟩
  · exact ⟨reason, by rw [hm, he, host]; rfl⟩
  · rw [hm, he] at hnil
    cases hnil

end DrivesAux

open DrivesAux

/-- A task of a drive, the only one left to do, leads to the next one of the drive, or to its end. -/
theorem Machine.goes (m : Machine) {x : Task} (ha : m.agenda = []) (hx : x.isRound = true) : (m.run x).Goes m.session x := by
  cases x with
  | beginRound d => exact goes_beginRound ha d
  | round r => exact goes_round ha r
  | conclude r slot g w outcome => exact goes_conclude ha r slot g w outcome
  | close r slot c => exact goes_close ha r slot c
  | _ => cases hx

/-- How far a drive is that the host asked for, where `I` is known of its task; the machines passed since are `later`. -/
inductive Machine.Drives (I : List Machine → Machine → Task → Prop) (later : List Machine) (m : Machine) : Prop where
  | crashed (hc : m.Crashed)
  | underway (pre : List Task) (x : Task) (ha : m.agenda = pre ++ [x]) (plain : ∀ y ∈ pre, Plain y)
      (step : pre = [] ∨ x.slot? ≠ none) (hr : x.isRound = true) (known : I later m x)
  /-- It has returned, by the task that was done last. -/
  | returned {before : List Machine} {q : Machine} {x : Task} (hl : later = q :: before) (ha : q.agenda = [x]) (hr : x.isRound = true)
      (known : I before q x) (hm : m = { q with agenda := [] }.run x) (hnil : m.agenda = [])

namespace Machine

namespace Course

variable {later earlier : List Machine} {p m : Machine} {kind : DriveKind} {rounds : Nat}

/-- What is true of the task of a drive when the drive begins, and is kept by what is done during its steps and by its beats, is
true until the drive returns. -/
theorem driven {P : Machine → Prop} {I : List Machine → Machine → Task → Prop} (run : Course (later ++ p :: earlier) m)
    (asked : p.agenda = [.call (.drive kind rounds) .host]) (underway : ∀ q ∈ later, q.agenda ≠ [])
    (quiet : ∀ q ∈ later, ¬ Reenters q.agenda) (hP : ∀ q ∈ later, P q)
    (start : I [] ({ p with agenda := [] }.run (.call (.drive kind rounds) .host))
      (.beginRound ⟨.host, kind, p.session.now, p.roundsOf rounds kind, 0⟩))
    (plain : ∀ {later : List Machine} {q : Machine} {t x : Task} {pre : List Task}, Course (later ++ p :: earlier) q →
      (∀ y ∈ q :: later, P y) → I later q x → q.agenda = t :: (pre ++ [x]) → Plain t → x.slot? ≠ none → x.isRound = true →
      ¬ ({ q with agenda := pre ++ [x] }.run t).Crashed → I (q :: later) ({ q with agenda := pre ++ [x] }.run t) x)
    (beat : ∀ {later : List Machine} {q : Machine} {x x' : Task} {pre : List Task}, Course (later ++ p :: earlier) q →
      (∀ y ∈ q :: later, P y) → I later q x → q.agenda = [x] → x.isRound = true →
      ({ q with agenda := [] }.run x).agenda = pre ++ [x'] → Beat q.session x x' →
      I (q :: later) ({ q with agenda := [] }.run x) x') : m.Drives I later := by
  induction later generalizing m with
  | nil =>
    cases run with
    | ask c _ idle =>
      rw [idle.1] at asked
      cases asked
    | step _ ha =>
      obtain ⟨rfl, rfl⟩ := List.cons.inj (asked.symm.trans ha)
      exact .underway [] _ rfl (by simp) (.inl rfl) rfl start
  | cons q later ih =>
    cases run with
    | ask c _ idle => exact absurd idle.1 (underway _ (.head _))
    | @step _ _ t rest run ha =>
      have hcalm := quiet q (.head _)
      cases ih run (fun y hy => underway y (.tail _ hy)) (fun y hy => quiet y (.tail _ hy)) fun y hy => hP y (.tail _ hy) with
      | crashed hc => exact absurd hc (not_crashed_of_agenda ha)
      | returned _ _ _ _ _ hnil =>
        rw [hnil] at ha
        cases ha
      | underway pre x hx hplain hstep hr known =>
        cases pre with
        | nil =>
          obtain ⟨rfl, rfl⟩ := List.cons.inj (ha.symm.trans hx)
          cases goes { q with agenda := [] } rfl hr with
          | crashed hc => exact .crashed hc
          | returned hnil => exact .returned rfl ha hr known rfl hnil
          | on pre x' hn hplain' hstep' hr' hb => exact .underway pre x' hn hplain' hstep' hr' (beat run hP known ha hr hn hb)
        | cons y pre =>
          rw [List.cons_append] at hx
          obtain ⟨rfl, rfl⟩ := List.cons.inj (ha.symm.trans hx)
          have ht := hplain t (.head _)
          have hs : x.slot? ≠ none := hstep.resolve_left (by simp)
          rcases run.advance ha with hc | ⟨new, hn, turn, -, -⟩
          · exact .crashed hc
          · rcases plain_of_turn turn with hnew | ⟨-, hround | ⟨kind', rounds', asker, rfl⟩⟩
            · refine .underway (new ++ pre) x (by rw [hn, List.append_assoc]) ?_ (.inr hs) hr
                (plain run hP known ha ht hs hr fun hc => ?_)
              · intro z hz
                rcases List.mem_append.1 hz with hz | hz
                · exact hnew z hz
                · exact hplain z (.tail _ hz)
              · rw [hc.1] at hn
                simp at hn
            · rw [ht.1] at hround
              cases hround
            · cases asker with
              | host => exact absurd rfl (ht.2 _)
              | script call =>
                rw [ha] at hcalm
                exact absurd trivial hcalm

end Course

end Machine

end LiveHighlight
