import LiveHighlight.Proofs.Session.WorkChangesOfTasks

/-!
# Courses

A course is everything that can happen in a session from its beginning on: the host asks something whenever nothing is left to
do, and the tasks are done one by one. `Machine.Course past m` says that a course comes to `m` after the machines of `past`, the
last one first. Restrictions on a course are restrictions on these machines, whose first tasks are the ones that were done.
`Course.invariant` is the induction that all invariants of the work go by.
-/

namespace LiveHighlight

namespace Machine

/-- Whether the host can ask something: nothing is left to do, and the machine has not crashed. -/
def Idle (m : Machine) : Prop := m.agenda = [] ∧ m.reply ≠ some .crashed

instance (m : Machine) : Decidable m.Idle :=
  decidable_of_iff (m.agenda.isEmpty = true ∧ m.reply ≠ some .crashed) (by simp [Idle])

/-- Whether the machine has crashed. -/
def Crashed (m : Machine) : Prop := m.agenda = [] ∧ m.reply = some .crashed

theorem not_crashed_of_agenda {m : Machine} {t : Task} {rest : List Task} (ha : m.agenda = t :: rest) : ¬ m.Crashed := by
  rintro ⟨he, -⟩
  rw [he] at ha
  cases ha

theorem Idle.not_crashed {m : Machine} (h : m.Idle) : ¬ m.Crashed := fun hc => h.2 hc.2

theorem step_eq {m : Machine} {t : Task} {rest : List Task} (ha : m.agenda = t :: rest) :
    m.step = { m with agenda := rest }.run t := by
  rw [step, ha]

/-- A course comes to a machine after other machines, the last one first. -/
inductive Course : List Machine → Machine → Prop where
  /-- A session in which nothing is set up. -/
  | new (options : SchedulerOptions) : Course [] ⟨.new options, [], none⟩
  /-- The host asks something. -/
  | ask {past : List Machine} {m : Machine} (c : Call) (run : Course past m) (idle : m.Idle) :
      Course (m :: past) (ask m.session c)
  /-- A task is done. -/
  | step {past : List Machine} {m : Machine} {t : Task} {rest : List Task} (run : Course past m) (ha : m.agenda = t :: rest) :
      Course (m :: past) ({ m with agenda := rest }.run t)

/-- The machines passed when tasks are done until none is left, at most so many, before those passed earlier. -/
def passed : (budget : Nat) → List Machine → Machine → List Machine
  | 0, past, _ => past
  | budget + 1, past, m => if m.agenda.isEmpty then past else passed budget (m :: past) m.step

/-- Asks some calls one after the other for as long as the host can ask, and does at most so many tasks for each: the machines
passed, and the one come to. -/
def talk (budget : Nat) : List Call → List Machine × Machine → List Machine × Machine
  | [], c => c
  | call :: calls, (past, m) =>
    if m.Idle then
      talk budget calls ((ask m.session call).passed budget (m :: past), (ask m.session call).settle budget)
    else (past, m)

end Machine

namespace CourseAux

/-- No task answers what only a crash answers, and a crash leaves nothing to do. -/
def Sober (m : Machine) : Prop :=
  (∀ x ∈ m.agenda, ∀ asker, x ≠ .answer asker .crashed) ∧ (m.reply = some .crashed → m.agenda = [])

theorem sober_of_light {o : Office} {x : Task} (h : x.Light o) (asker : Asker) : x ≠ .answer asker .crashed := by
  rintro rfl
  exact h rfl

/-- No turn leaves a task that answers what only a crash answers. -/
theorem sober_of_turn {o o' : Office} {t : Task} {new : List Task} (h : Turn o t o' new) :
    ∀ x ∈ new, ∀ asker, x ≠ .answer asker .crashed := by
  intro x hx asker
  cases h.left hx with
  | light hx => exact sober_of_light hx asker
  | _ => nofun

end CourseAux

open CourseAux

namespace Machine

namespace Course

variable {past : List Machine} {m : Machine}

/-- What is done along a course is a turn or a crash. -/
theorem turn_of_sober {t : Task} {rest : List Task} (hm : Sober m) (ha : m.agenda = t :: rest) :
    (({ m with agenda := rest }.run t).Crashed ∧ ∃ slot, (m.session.scheduler.slot slot).barred = true) ∨
      ∃ new, ({ m with agenda := rest }.run t).agenda = new ++ rest ∧
        Turn m.session.office t ({ m with agenda := rest }.run t).session.office new ∧
        ({ m with agenda := rest }.run t).reply ≠ some .crashed := by
  have ht : ∀ asker, t ≠ .answer asker .crashed := hm.1 t (by simp [ha])
  rcases run_turn { m with agenda := rest } ht with ⟨hc, hb⟩ | ⟨⟨new, hn, hturn⟩, hr⟩
  · exact .inl ⟨by rw [hc]; exact ⟨rfl, rfl⟩, hb⟩
  · refine .inr ⟨new, hn, hturn, ?_⟩
    intro h
    rw [hm.2 (hr h)] at ha
    cases ha

theorem sober (run : Course past m) : Sober m := by
  induction run with
  | new options => simp [Sober]
  | ask c _ _ _ => simp [Sober, Machine.ask]
  | step run ha ih =>
    rcases turn_of_sober ih ha with ⟨hc, -⟩ | ⟨new, hn, hturn, hr⟩
    · exact ⟨by simp [hc.1], fun _ => hc.1⟩
    · refine ⟨?_, fun h => absurd h hr⟩
      intro x hx
      rw [hn, List.mem_append] at hx
      rcases hx with hx | hx
      · exact sober_of_turn hturn x hx
      · exact ih.1 x (by simp [ha, hx])

/-- Doing a task is a turn, or a crash at a barred slot. -/
theorem turn (run : Course past m) {t : Task} {rest : List Task} (ha : m.agenda = t :: rest) :
    (({ m with agenda := rest }.run t).Crashed ∧ ∃ slot, (m.session.scheduler.slot slot).barred = true) ∨
      ∃ new, ({ m with agenda := rest }.run t).agenda = new ++ rest ∧
        Turn m.session.office t ({ m with agenda := rest }.run t).session.office new ∧
        ({ m with agenda := rest }.run t).reply ≠ some .crashed :=
  turn_of_sober run.sober ha

/-- An invariant of the work and of what is left to do holds along every course, up to a crash: it holds of a session in which
nothing is set up, and asking and turns keep it. Turns may be restricted to those of the machines of the course. -/
theorem invariant {P I : Office → List Task → Prop} (run : Course past m)
    (hP : ∀ p ∈ past, P p.session.office p.agenda)
    (new : ∀ options, I (Session.new options).office [])
    (ask : ∀ {o : Office} (c : Call), I o [] → I o [.call c .host])
    (turn : ∀ {o o' : Office} {t : Task} {rest new : List Task}, P o (t :: rest) → I o (t :: rest) → Turn o t o' new →
      I o' (new ++ rest)) :
    m.Crashed ∨ I m.session.office m.agenda := by
  induction run with
  | new options => exact .inr (new options)
  | ask c _ idle ih =>
    have hi := (ih fun p hp => hP p (.tail _ hp)).resolve_left idle.not_crashed
    exact .inr (ask c (idle.1 ▸ hi))
  | step run ha ih =>
    have hPm := hP _ (.head _)
    have hi := (ih fun p hp => hP p (.tail _ hp)).resolve_left (not_crashed_of_agenda ha)
    rw [ha] at hi hPm
    rcases run.turn ha with ⟨hc, -⟩ | ⟨new', hn, hturn, -⟩
    · exact .inl hc
    · rw [hn]
      exact .inr (turn hPm hi hturn)

/-- An invariant that rules out barred slots holds along every course, and the machine never crashes. -/
theorem invariant_of_unbarred {P I : Office → List Task → Prop} (run : Course past m)
    (hP : ∀ p ∈ past, P p.session.office p.agenda)
    (new : ∀ options, I (Session.new options).office [])
    (ask : ∀ {o : Office} (c : Call), I o [] → I o [.call c .host])
    (turn : ∀ {o o' : Office} {t : Task} {rest new : List Task}, P o (t :: rest) → I o (t :: rest) → Turn o t o' new →
      I o' (new ++ rest))
    (unbarred : ∀ {o : Office} {agenda : List Task}, I o agenda → ∀ slot, (o.scheduler.slot slot).barred = false) :
    m.reply ≠ some .crashed ∧ I m.session.office m.agenda := by
  induction run with
  | new options => exact ⟨by simp, new options⟩
  | ask c _ idle ih => exact ⟨by simp [Machine.ask], ask c (idle.1 ▸ (ih fun p hp => hP p (.tail _ hp)).2)⟩
  | step run ha ih =>
    have hi := (ih fun p hp => hP p (.tail _ hp)).2
    have hPm := hP _ (.head _)
    rcases run.turn ha with ⟨-, slot, hb⟩ | ⟨new', hn, hturn, hr⟩
    · exact absurd hb (by simpa [Session.office] using unbarred hi slot)
    · rw [ha] at hi hPm
      rw [hn]
      exact ⟨hr, turn hPm hi hturn⟩

/-- Every machine that was passed was come to by a course of its own, through machines that were passed. -/
theorem of_mem {p : Machine} (run : Course past m) (hp : p ∈ past) : ∃ past', Course past' p ∧ past' ⊆ past := by
  induction run with
  | new options => cases hp
  | ask _ run _ ih | step run _ ih =>
    rcases List.mem_cons.1 hp with rfl | hp
    · exact ⟨_, run, List.subset_cons_self _ _⟩
    · obtain ⟨past', run', hs⟩ := ih hp
      exact ⟨past', run', List.subset_cons_of_subset _ hs⟩

/-- Doing tasks goes on with the course. -/
theorem settle (run : Course past m) (budget : Nat) : Course (m.passed budget past) (m.settle budget) := by
  induction budget generalizing past m with
  | zero => exact run
  | succ budget ih =>
    simp only [Machine.settle, Machine.passed]
    split
    · exact run
    · next ha =>
      obtain ⟨t, rest, ha⟩ : ∃ t rest, m.agenda = t :: rest := by
        cases hm : m.agenda with
        | nil => simp [hm] at ha
        | cons t rest => exact ⟨t, rest, rfl⟩
      exact ih (step_eq ha ▸ run.step ha)

/-- The machines passed come before those passed earlier. -/
theorem passed_append (m : Machine) (budget : Nat) (past past' : List Machine) :
    m.passed budget (past ++ past') = m.passed budget past ++ past' := by
  induction budget generalizing past m with
  | zero => rfl
  | succ budget ih =>
    simp only [Machine.passed]
    split
    · rfl
    · exact ih m.step (m :: past)

/-- A machine with something left to do is the first one passed. -/
theorem settle_succ (run : Course past m) (budget : Nat) (ha : m.agenda.isEmpty = false) :
    Course (m.step.passed budget [] ++ m :: past) (m.settle (budget + 1)) := by
  have run' := run.settle (budget + 1)
  have hp : m.passed (budget + 1) past = m.step.passed budget ([] ++ m :: past) := by simp [Machine.passed, ha]
  rwa [hp, passed_append] at run'

/-- The host asks something, and tasks are done. -/
theorem asked (run : Course past m) (c : Call) (idle : m.Idle) (budget : Nat) :
    Course ((Machine.ask m.session c).passed budget [] ++ m :: past) ((Machine.ask m.session c).settle budget) := by
  rw [← passed_append]
  exact (run.ask c idle).settle budget

/-- Asking goes on with the course. -/
theorem talk (run : Course past m) (budget : Nat) (calls : List Call) :
    Course (Machine.talk budget calls (past, m)).1 (Machine.talk budget calls (past, m)).2 := by
  induction calls generalizing past m with
  | nil => exact run
  | cons call calls ih =>
    unfold Machine.talk
    split
    · next idle => exact ih ((run.ask call idle).settle budget)
    · exact run

/-- The machines that are passed by asking come before those passed earlier. -/
theorem talk_append (budget : Nat) (calls : List Call) (later past : List Machine) (m : Machine) :
    Machine.talk budget calls (later ++ past, m) =
      ((Machine.talk budget calls (later, m)).1 ++ past, (Machine.talk budget calls (later, m)).2) := by
  induction calls generalizing later m with
  | nil => rfl
  | cons call calls ih =>
    unfold Machine.talk
    split
    · rw [← List.cons_append, passed_append]
      exact ih _ _
    · rfl

/-- The same, with the machines passed by asking apart from those passed earlier. -/
theorem talked (run : Course past m) (budget : Nat) (calls : List Call) :
    Course ((Machine.talk budget calls ([], m)).1 ++ past) (Machine.talk budget calls ([], m)).2 := by
  have run' := run.talk budget calls
  rwa [← List.nil_append past, talk_append] at run'

/-- A task of a machine that was passed was done, unless the host asked something there. -/
theorem run_mem {p : Machine} {t : Task} {rest : List Task} (run : Course past m) (hp : p ∈ past) (ha : p.agenda = t :: rest) :
    { p with agenda := rest }.run t ∈ m :: past := by
  induction run with
  | new options => cases hp
  | ask c run idle ih =>
    rcases List.mem_cons.1 hp with rfl | hp
    · rw [idle.1] at ha
      cases ha
    · exact .tail _ (ih hp)
  | step run ha' ih =>
    rcases List.mem_cons.1 hp with rfl | hp
    · rw [ha'] at ha
      cases ha
      exact .head _
    · exact .tail _ (ih hp)

/-- What holds once a task of a machine that was passed is done, and is kept from there on, holds of the machine come to. What is
done later may be restricted. -/
theorem after {P I : Machine → Prop} {later earlier : List Machine} {p : Machine} {t : Task} {rest : List Task}
    (run : Course (later ++ p :: earlier) m) (ha : p.agenda = t :: rest) (hP : ∀ q ∈ later, P q)
    (start : I ({ p with agenda := rest }.run t))
    (ask : ∀ {past : List Machine} {q : Machine} (c : Call), Course past q → P q → I q → q.Idle → I (Machine.ask q.session c))
    (step : ∀ {past : List Machine} {q : Machine} {t : Task} {rest : List Task}, Course past q → P q → I q →
      q.agenda = t :: rest → I ({ q with agenda := rest }.run t)) : I m := by
  induction later generalizing m with
  | nil =>
    cases run with
    | ask c _ idle =>
      rw [idle.1] at ha
      cases ha
    | step _ ha' =>
      rw [ha'] at ha
      cases ha
      exact start
  | cons q later ih =>
    cases run with
    | ask c run idle => exact ask c run (hP _ (.head _)) (ih run fun x hx => hP x (.tail _ hx)) idle
    | step run ha' => exact step run (hP _ (.head _)) (ih run fun x hx => hP x (.tail _ hx)) ha'

/-- What holds of a machine that was passed, and is kept from there on, holds of the machine come to. -/
theorem along {I : Machine → Prop} {later earlier : List Machine} {p : Machine} (run : Course (later ++ p :: earlier) m)
    (start : I p) (ask : ∀ {q : Machine} (c : Call), I q → q.Idle → I (Machine.ask q.session c))
    (step : ∀ {past : List Machine} {q : Machine} {t : Task} {rest : List Task}, Course past q → I q → q.agenda = t :: rest →
      I ({ q with agenda := rest }.run t)) : I m := by
  induction later generalizing m with
  | nil =>
    cases run with
    | ask c _ idle => exact ask c start idle
    | step run ha => exact step run start ha
  | cons q later ih =>
    cases run with
    | ask c run idle => exact ask c (ih run) idle
    | step run ha => exact step run (ih run) ha

/-- The machine passed last was come to through the others. -/
theorem previous {p : Machine} (run : Course (p :: past) m) : Course past p := by
  cases run with
  | ask _ run _ => exact run
  | step run _ => exact run

/-- What comes after a machine that was passed: the host asked something, or a task was done. -/
theorem next_cases {p : Machine} (run : Course (p :: past) m) :
    (p.Idle ∧ ∃ c, m = Machine.ask p.session c) ∨ (∃ t rest, p.agenda = t :: rest) ∧ m = p.step := by
  cases run with
  | ask c _ idle => exact .inl ⟨idle, c, rfl⟩
  | step _ ha => exact .inr ⟨⟨_, _, ha⟩, (step_eq ha).symm⟩

/-- A machine that was passed was come to through those passed before it. -/
theorem before {later earlier : List Machine} {p : Machine} (run : Course (later ++ p :: earlier) m) : Course earlier p := by
  induction later generalizing m with
  | nil => exact run.previous
  | cons q later ih => exact ih run.previous

/-- Every machine passed after another one was come to by a course through that one. -/
theorem of_later {later earlier : List Machine} {p q : Machine} (run : Course (later ++ p :: earlier) m)
    (hq : q ∈ m :: later) : ∃ between, Course (between ++ p :: earlier) q ∧ between ⊆ later := by
  induction later generalizing m with
  | nil =>
    obtain rfl := List.mem_singleton.1 hq
    exact ⟨[], run, List.Subset.refl _⟩
  | cons x later ih =>
    rcases List.mem_cons.1 hq with rfl | hq
    · exact ⟨_, run, List.Subset.refl _⟩
    · obtain ⟨between, hc, hs⟩ := ih run.previous hq
      exact ⟨between, hc, List.subset_cons_of_subset _ hs⟩

end Course

end Machine

end LiveHighlight
