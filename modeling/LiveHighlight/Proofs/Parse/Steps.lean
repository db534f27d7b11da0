import LiveHighlight.Parse.Run

/-!
# Steps of a run

A run that has ended stays as it is, so steps taken in slices are the same steps taken at once (`advance_add`), and once some
number of steps ends a run, stepping until the end gives what these steps give (`Leads.toEnd`). `Leads` says that some number
of steps goes from one run and memory to another. `Stepped` lists what a single step can do (`stepped`), and `Next` says which
pending element it is about (`plan_cases`).
-/

namespace LiveHighlight

namespace Run

variable {σ : Type} {l : Listener σ} {s : Stream}

/-- A step of a run that has ended does nothing. -/
theorem step_of_ended {r : Run} (h : r.phase ≠ .running) (memory : σ) : r.step l s memory = (r, memory) := by
  simp [step, h]

/-- Whether the next step of a run is about the pending element `next`, the others being `rest`: it is the first one, or, with
nothing pending and characters left, the start state. -/
def Next (s : Stream) (r : Run) (next : Pending) (rest : List Pending) : Prop :=
  r.pending = next :: rest ∨ r.pending = [] ∧ next = ⟨.top, r.maxDepth⟩ ∧ rest = [] ∧ r.position < s.length

/-- What a run plans: to match what is next, or nothing, once its stream is used up and nothing is pending. -/
theorem plan_cases (s : Stream) (r : Run) :
    (∃ next rest, r.Next s next rest ∧ r.plan s = (r.moveAt s next rest).map some) ∨
      r.plan s = .ok none ∧ r.pending = [] ∧ ¬r.position < s.length := by
  unfold plan
  split
  · next next rest hp => exact .inl ⟨next, rest, .inl hp, rfl⟩
  · next hp =>
    split
    · next hin => exact .inl ⟨_, [], .inr ⟨hp, rfl, rfl, of_decide_eq_true hin⟩, rfl⟩
    · next hout => exact .inr ⟨rfl, hp, by simpa [Stream.inBounds] using hout⟩

/-- A run plans to match what is next. -/
theorem plan_of_next {r : Run} {next : Pending} {rest : List Pending} (h : r.Next s next rest) :
    r.plan s = (r.moveAt s next rest).map some := by
  rcases h with hp | ⟨hp, rfl, rfl, hin⟩
  · simp only [plan, hp]
  · simp only [plan, hp, Stream.inBounds, hin, decide_true, if_true]

/-- A move that is planned is one with what is next. -/
theorem moveAt_of_plan {r : Run} {move : Move} (h : r.plan s = .ok (some move)) :
    ∃ next rest, r.Next s next rest ∧ r.moveAt s next rest = .ok move := by
  rcases plan_cases s r with ⟨next, rest, hnext, hplan⟩ | ⟨hend, -⟩
  · rw [hplan] at h
    refine ⟨next, rest, hnext, ?_⟩
    cases hm : r.moveAt s next rest with
    | error fault => simp [hm, Except.map] at h
    | ok planned => simpa [hm, Except.map] using h
  · rw [hend] at h
    cases h

/-- A fault that is planned is one with what is next. -/
theorem fault_of_plan {r : Run} {fault : ParseFault} (h : r.plan s = .error fault) :
    ∃ next rest, r.Next s next rest ∧ r.moveAt s next rest = .error fault := by
  rcases plan_cases s r with ⟨next, rest, hnext, hplan⟩ | ⟨hend, -⟩
  · rw [hplan] at h
    refine ⟨next, rest, hnext, ?_⟩
    cases hm : r.moveAt s next rest with
    | error found => simpa [hm, Except.map] using h
    | ok planned => simp [hm, Except.map] at h
  · rw [hend] at h
    cases h

/-- A run that plans nothing has nothing pending, and its stream is used up. -/
theorem end_of_plan {r : Run} (h : r.plan s = .ok none) : r.pending = [] ∧ ¬r.position < s.length := by
  rcases plan_cases s r with ⟨next, rest, -, hplan⟩ | ⟨-, hend⟩
  · rw [hplan] at h
    cases hm : r.moveAt s next rest <;> simp [hm, Except.map] at h
  · exact hend

/-- What a step of a run can come to. -/
inductive Stepped (l : Listener σ) (s : Stream) (r : Run) (memory : σ) : Run × σ → Prop
  /-- The run has ended before. -/
  | ended (gone : r.phase ≠ .running) : Stepped l s r memory (r, memory)
  /-- The run finds a fault itself. -/
  | faulty {fault : ParseFault} (running : r.phase = .running) (planned : r.plan s = .error fault) :
    Stepped l s r memory (r.fail, l.abort memory fault r.position)
  /-- There is nothing left to do. -/
  | finished (running : r.phase = .running) (planned : r.plan s = .ok none) :
    Stepped l s r memory ({ r with phase := .finished }, memory)
  /-- The run makes a move of which nothing is told. -/
  | silent {move : Move} (running : r.phase = .running) (planned : r.plan s = .ok (some move)) (untold : move.event = none) :
    Stepped l s r memory (r.follow move, memory)
  /-- The listener takes what it is told. -/
  | heard {move : Move} {event : Event} {memory' : σ} (running : r.phase = .running) (planned : r.plan s = .ok (some move))
    (told : move.event = some event) (hears : l.hear memory event = (memory', none)) : Stepped l s r memory (r.follow move, memory')
  /-- The listener refuses what it is told. -/
  | declined {move : Move} {event : Event} {memory' : σ} {fault : ParseFault} (running : r.phase = .running)
    (planned : r.plan s = .ok (some move)) (told : move.event = some event) (hears : l.hear memory event = (memory', some fault)) :
    Stepped l s r memory (r.fail, l.abort memory' fault r.position)

theorem stepped (r : Run) (memory : σ) : Stepped l s r memory (r.step l s memory) := by
  unfold step
  split
  · next gone => exact .ended gone
  · next going =>
    have running : r.phase = .running := Decidable.not_not.1 going
    split
    · next planned => exact .faulty running planned
    · next planned => exact .finished running planned
    · next planned =>
      split
      · next untold => exact .silent running planned untold
      · next told =>
        split
        · next hears => exact .heard running planned told hears
        · next hears => exact .declined running planned told hears

/-- A step leaves the grammar and the budget as they are. -/
theorem settings_step (r : Run) (memory : σ) :
    (r.step l s memory).1.grammar = r.grammar ∧ (r.step l s memory).1.maxDepth = r.maxDepth := by
  have h := stepped (l := l) (s := s) r memory
  generalize r.step l s memory = x at h
  cases h <;> exact ⟨rfl, rfl⟩

theorem grammar_step (r : Run) (memory : σ) : (r.step l s memory).1.grammar = r.grammar := (settings_step r memory).1

/-- Steps of a run that has ended do nothing. -/
theorem advance_of_ended {r : Run} (h : r.phase ≠ .running) (memory : σ) (n : Nat) :
    r.advance l s n memory = (r, memory) := by
  cases n with
  | zero => rfl
  | succ n => simp [advance, step_of_ended h, h]

/-- One step and then some more. -/
theorem advance_succ (r : Run) (memory : σ) (n : Nat) :
    r.advance l s (n + 1) memory = (r.step l s memory).1.advance l s n (r.step l s memory).2 := by
  by_cases h : (r.step l s memory).1.phase = .running
  · simp [advance, h]
  · rw [advance_of_ended h]
    simp [advance, h]

/-- Some steps and then some more are all of them. -/
theorem advance_add (r : Run) (memory : σ) (m n : Nat) :
    r.advance l s (m + n) memory = (r.advance l s m memory).1.advance l s n (r.advance l s m memory).2 := by
  induction m generalizing r memory with
  | zero => rw [Nat.zero_add]; rfl
  | succ m ih => rw [Nat.add_right_comm, advance_succ, ih, advance_succ]

/-- Steps leave the grammar as it is. -/
theorem grammar_advance (r : Run) (memory : σ) (n : Nat) : (r.advance l s n memory).1.grammar = r.grammar := by
  induction n generalizing r memory with
  | zero => rfl
  | succ n ih => rw [advance_succ, ih, grammar_step]

/-- Stepping until the end does nothing once a run has ended. -/
theorem toEnd_of_ended {r : Run} (h : r.phase ≠ .running) (memory : σ) : r.toEnd l s memory = (r, memory) := by
  rw [toEnd_eq, step_of_ended h]
  simp [h]

/-- Some number of steps goes from one run and memory to another. -/
def Leads (l : Listener σ) (s : Stream) (x y : Run × σ) : Prop := ∃ n, x.1.advance l s n x.2 = y

theorem Leads.refl (x : Run × σ) : Leads l s x x := ⟨0, rfl⟩

theorem Leads.trans {x y z : Run × σ} (h : Leads l s x y) (h' : Leads l s y z) : Leads l s x z := by
  obtain ⟨m, rfl⟩ := h
  obtain ⟨n, rfl⟩ := h'
  exact ⟨m + n, advance_add _ _ m n⟩

theorem Leads.step {r : Run} {memory : σ} {y : Run × σ} (h : r.step l s memory = y) : Leads l s (r, memory) y := by
  subst h
  exact ⟨1, advance_succ r memory 0⟩

/-- Stepping until the end gives what some number of steps gives that ends the run. -/
theorem Leads.toEnd {r : Run} {memory : σ} {y : Run × σ} (h : Leads l s (r, memory) y) (hy : y.1.phase ≠ .running) :
    r.toEnd l s memory = y := by
  obtain ⟨n, hn⟩ := h
  induction n generalizing r memory with
  | zero =>
    have hr : (r, memory) = y := hn
    subst hr
    exact toEnd_of_ended hy memory
  | succ n ih =>
    rw [Run.toEnd_eq]
    have hn' := hn
    rw [advance_succ] at hn'
    by_cases hp : (r.step l s memory).1.phase = .running
    · simp only [hp, if_true]
      exact ih hn'
    · rw [advance_of_ended hp] at hn'
      simp only [hp, if_false]
      exact hn'

end Run

/-- What a parse tells is what some number of steps tells that ends it. -/
theorem Grammar.notes_of_advance {g : Grammar} {s : Stream} {maxDepth n : Nat} {r : Run} {notes : Array Note}
    (h : (Run.start g maxDepth).advance notebook s n #[] = (r, notes)) (ended : r.phase ≠ .running) :
    g.notes s maxDepth = notes := by
  have hend : (Run.start g maxDepth).toEnd notebook s #[] = (r, notes) := Run.Leads.toEnd ⟨n, h⟩ ended
  rw [Grammar.notes, hend]

end LiveHighlight
