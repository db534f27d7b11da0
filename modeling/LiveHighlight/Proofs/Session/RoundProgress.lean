import LiveHighlight.Proofs.Session.Orderly
import LiveHighlight.Proofs.Session.ScheduleChanges

/-!
# The course of a round

`Beat` says how the tasks of a round follow one another: which slots a round sees to, in which order, and what is left of it
after each of them. A machine begins a step (`Machine.Begins`) where a round comes to a slot that is due and holds a worker.
`Course.advance` puts together what doing a task along a course is: a turn, a shift, and the next beats.
-/

namespace LiveHighlight

/-- The round that a task belongs to. -/
def Task.round? : Task → Option Round
  | .round r | .conclude r _ _ _ _ | .close r _ _ => some r
  | _ => none

/-- Why a task of a round is left. -/
inductive Beat (s : Session) : Task → Task → Prop where
  /-- Work is let run. -/
  | driven {kind : DriveKind} {rounds left : Nat} {asker : Asker} :
      Beat s (.call (.drive kind rounds) asker) (.beginRound ⟨asker, kind, s.now, left, 0⟩)
  /-- A round begins with the slots that are due. -/
  | begun {d : Drive} (hd : d.left ≠ 0) (hb : s.scheduler.anyBarred = false) :
      Beat s (.beginRound d) (.round ⟨{ d with left := d.left - 1 }, s.now, s.scheduler.due s.now, 0⟩)
  /-- A slot is passed over. -/
  | passed {r : Round} {slot : Nat} {due : List Nat} (hr : r.due = slot :: due)
      (hc : ∀ w g, (s.scheduler.claim slot r.now).2 ≠ .step w g) : Beat s (.round r) (.round { r with due })
  /-- A worker takes a step. -/
  | stepped {r : Round} {slot g : Nat} {due : List Nat} {w w' : Worker} {outcome : Outcome} (hr : r.due = slot :: due)
      (hc : (s.scheduler.claim slot r.now).2 = .step w g) (hl : w.Later w') :
      Beat s (.round r) (.conclude { r with due } slot g w' outcome)
  /-- A step ends. -/
  | concluded {r : Round} {slot g : Nat} {w : Worker} {outcome : Outcome} :
      Beat s (.conclude r slot g w outcome) (.close r slot (s.scheduler.conclude slot g w outcome s.now).2)
  /-- A round goes on after a step. -/
  | closed {r : Round} {slot : Nat} {c : Conclusion Worker} (hc : ∀ reason, c.fault ≠ some (.fatal reason)) :
      Beat s (.close r slot c) (.round { r with ran := r.ran + 1 })
  /-- A round is over and another one follows. -/
  | again {r : Round} (hr : r.due = []) (hd : r.drive.left ≠ 0) :
      Beat s (.round r) (.beginRound { r.drive with ran := r.drive.ran + r.ran })

/-- The slot out of which the first task takes a worker for a step, and the worker. -/
def Machine.begun? (m : Machine) : Option (Nat × Worker) :=
  match m.agenda with
  | .round r :: _ =>
    match r.due with
    | [] => none
    | slot :: _ =>
      match (m.session.scheduler.claim slot r.now).2 with
      | .step w _ => some (slot, w)
      | _ => none
  | _ => none

/-- Whether the first task takes a worker out of a slot for a step. -/
def Machine.Begins (m : Machine) (k : Nat) (w : Worker) : Prop := m.begun? = some (k, w)

theorem Machine.begins_iff {m : Machine} {k : Nat} {w : Worker} :
    m.Begins k w ↔ ∃ r due rest g, m.agenda = .round r :: rest ∧ r.due = k :: due ∧
      (m.session.scheduler.claim k r.now).2 = .step w g := by
  constructor
  · intro h
    unfold Begins begun? at h
    split at h
    · next r rest ha =>
      split at h
      · cases h
      · next slot due hr =>
        split at h
        · next w' g hc =>
          cases h
          exact ⟨r, due, rest, g, ha, hr, hc⟩
        · cases h
    · cases h
  · rintro ⟨r, due, rest, g, ha, hr, hc⟩
    simp [Begins, begun?, ha, hr, hc]

theorem Machine.begins_of_begun {m : Machine} {k : Nat} (h : m.begun?.map Prod.fst = some k) : ∃ w, m.Begins k w := by
  obtain ⟨⟨_, w⟩, hb, rfl⟩ := Option.map_eq_some_iff.1 h
  exact ⟨w, hb⟩

/-- `m'` comes from `m` by leaving tasks of a round for the reasons that `Beat` lists, or by a crash. -/
def Machine.Beats (m : Machine) (t : Task) (m' : Machine) : Prop :=
  m'.agenda = [] ∨ ∃ new, m'.agenda = new ++ m.agenda ∧ ∀ x ∈ new, x.isRound = true → Beat m.session t x

namespace RoundProgressAux

open ShiftAux

variable {m m' : Machine} {t x : Task}

theorem beats_nothing (h : m'.agenda = m.agenda) : m.Beats t m' := .inr ⟨[], h, by simp⟩

theorem beats_one (ha : m'.agenda = x :: m.agenda) (hb : Beat m.session t x) : m.Beats t m' := by
  refine .inr ⟨[x], ha, ?_⟩
  intro y hy _
  obtain rfl := List.mem_singleton.1 hy
  exact hb

theorem agenda_answer (m : Machine) (asker : Asker) (r : Reply) : (m.answer asker r).agenda = m.agenda := by
  cases asker <;> rfl

theorem beats_beginRound (m : Machine) (d : Drive) : m.Beats (.beginRound d) (m.beginRound d) := by
  unfold Machine.beginRound
  split
  · exact beats_nothing (agenda_answer m _ _)
  · next hd =>
    split
    · exact .inl rfl
    · next hb => exact beats_one rfl (.begun hd (by simpa using hb))

/-- A step leaves what it tells, and behind that the task that sees to its outcome. -/
theorem beats_work {scheduler : Scheduler Worker} {w : Worker} {next : Worker → Outcome → Task}
    (hb : ∀ w' outcome, w.Later w' → Beat m.session t (next w' outcome)) :
    m.Beats t ((m.schedule scheduler).work w next) := by
  obtain ⟨w', outcome, s, new, h, -, hl, hn⟩ := OfficeAux.work_spec (m.schedule scheduler) w next
  rw [h]
  refine .inr ⟨_, rfl, ?_⟩
  intro x hx hr
  rcases List.mem_append.1 hx with hx | hx
  · rw [(OrderlyAux.plain_of_light (hn x hx)).1] at hr
    cases hr
  · obtain rfl := List.mem_singleton.1 hx
    exact hb w' outcome hl

theorem beats_round (m : Machine) (r : Round) : m.Beats (.round r) (m.round r) := by
  unfold Machine.round
  split
  · next hdue =>
    unfold Machine.endRound
    dsimp only
    split
    · next hg =>
      simp only [Machine.goesOn, decide_eq_true_eq] at hg
      exact beats_one rfl (.again hdue hg.2.1)
    · exact beats_nothing (agenda_answer m _ _)
  · next slot due hdue =>
    dsimp only
    split
    · next scheduler w g heq => exact beats_work fun w' outcome hl => .stepped hdue (by rw [heq]) hl
    · next scheduler _ hne heq =>
      refine beats_one rfl (.passed hdue fun w g hw => hne w g ?_)
      rw [heq] at hw
      exact hw

theorem beats_conclude (m : Machine) (r : Round) (slot g : Nat) (w : Worker) (outcome : Outcome) :
    m.Beats (.conclude r slot g w outcome) (m.conclude r slot g w outcome) := by
  refine .inr ⟨_, rfl, ?_⟩
  intro x hx hr
  rcases List.mem_append.1 hx with hx | hx
  · obtain ⟨old, -, rfl⟩ := List.mem_map.1 hx
    cases hr
  · obtain rfl := List.mem_singleton.1 hx
    exact .concluded

theorem beats_close (m : Machine) (r : Round) (slot : Nat) (c : Conclusion Worker) :
    m.Beats (.close r slot c) (m.close r slot c) := by
  obtain ⟨m', hs, hclose⟩ := m.close_cases r slot c
  have ha : m'.agenda = m.agenda := by cases hs <;> rfl
  rcases hclose with ⟨reason, -, he⟩ | ⟨hf, he⟩
  · rw [he]
    exact beats_nothing ((agenda_answer m' _ _).trans ha)
  · rw [he]
    exact beats_one (congrArg _ ha) (.closed hf)

theorem beats_run (m : Machine) {t : Task} (ht : ∀ asker, t ≠ .answer asker .crashed) : m.Beats t (m.run t) := by
  cases ht' : t.isRound with
  | true =>
    cases t with
    | beginRound d => exact beats_beginRound m d
    | round r => exact beats_round m r
    | conclude r slot g w outcome => exact beats_conclude m r slot g w outcome
    | close r slot c => exact beats_close m r slot c
    | _ => cases ht'
  | false =>
    by_cases hd : ∃ kind rounds asker, t = .call (.drive kind rounds) asker
    · obtain ⟨kind, rounds, asker, rfl⟩ := hd
      exact beats_one rfl .driven
    · rcases m.run_turn ht with ⟨hc, -⟩ | ⟨⟨new, hn, hturn⟩, -⟩
      · exact .inl (by rw [hc]; rfl)
      · refine .inr ⟨new, hn, ?_⟩
        intro x hx hr
        rcases OrderlyAux.plain_of_turn hturn with hp | ⟨-, h | h⟩
        · rw [(hp x hx).1] at hr
          cases hr
        · rw [ht'] at h
          cases h
        · exact absurd h hd

end RoundProgressAux

open RoundProgressAux

/-- A task of a round that a task leaves is the next one of the round. -/
theorem Machine.run_beat (m : Machine) {t x : Task} {new : List Task} (ht : ∀ asker, t ≠ .answer asker .crashed)
    (hn : (m.run t).agenda = new ++ m.agenda) (hx : x ∈ new) (hr : x.isRound = true) : Beat m.session t x := by
  rcases beats_run m ht with hc | ⟨new', hn', hb⟩
  · rw [hc] at hn
    rw [(List.append_eq_nil_iff.1 hn.symm).1] at hx
    cases hx
  · rw [List.append_cancel_right (hn'.symm.trans hn)] at hb
    exact hb x hx hr

/-- Doing a task along a course is a turn that shifts the schedule and carries rounds on, or a crash. -/
theorem Machine.Course.advance {past : List Machine} {m : Machine} (run : Course past m) {t : Task} {rest : List Task}
    (ha : m.agenda = t :: rest) :
    ({ m with agenda := rest }.run t).Crashed ∨
      ∃ new, ({ m with agenda := rest }.run t).agenda = new ++ rest ∧
        Turn m.session.office t ({ m with agenda := rest }.run t).session.office new ∧
        Shift m.session t ({ m with agenda := rest }.run t).session.scheduler ∧
        ∀ x ∈ new, x.isRound = true → Beat m.session t x := by
  rcases run.turn ha with ⟨hc, -⟩ | ⟨new, hn, hturn, -⟩
  · exact .inl hc
  · have ht : ∀ asker, t ≠ .answer asker .crashed := run.sober.1 t (by simp [ha])
    exact .inr ⟨new, hn, hturn, { m with agenda := rest }.run_shift t,
      fun x hx hr => { m with agenda := rest }.run_beat ht hn hx hr⟩

end LiveHighlight
