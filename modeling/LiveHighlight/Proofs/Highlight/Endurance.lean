import LiveHighlight.Proofs.Highlight.Progress
import LiveHighlight.Proofs.Parse.Termination

/-!
# What a parse job withstands

Between two steps of a parse job its document can be edited in any way, and the job can be cancelled. So all that a job can rely on
at a step is itself: `ParseJob.steps` are the steps that it takes at moments of which nothing is known. It comes to its end all the
same, after a number of steps that the moments have no part in, and it announces that once (`ParseJob.exists_endures`). What one step can
be is said by `ParseJob.Paces`; how far a job is from its end at most, whoever refuses its events, by `ParseJob.Within`.
-/

namespace LiveHighlight

/-- What a parse job finds at a step: whether it is cancelled, and the lines of its document. -/
structure Moment where
  cancelled : Bool
  buffer : Buffer

/-- Whether a step leaves the document alone, tells nothing and ends the work. -/
structure JobStep.Idles (step : JobStep) (t : Moment) : Prop where
  buffer : step.buffer = t.buffer
  complaint : step.complaint = none
  announces : step.announces = false
  next : step.next = .finished

namespace ParseJob

/-- The steps that a job takes at some moments, one after the other. -/
def steps (j : ParseJob) : List Moment → List JobStep
  | [] => []
  | t :: ts => j.step t.cancelled t.buffer :: (j.step t.cancelled t.buffer).job.steps ts

/-- The job after its steps at some moments. -/
def after (j : ParseJob) (moments : List Moment) : ParseJob := moments.foldl (fun j t => (j.step t.cancelled t.buffer).job) j

/-- What can be said of the steps of a job without knowing the moments at which it takes them. -/
structure Endures (bound : Nat) (moments : List Moment) (steps : List JobStep) : Prop where
  length : steps.length = moments.length
  /-- The work ends, after a number of steps that does not depend on the moments. -/
  finishes : ∀ (n : Nat) (step : JobStep), steps[n]? = some step → bound ≤ n → step.next = .finished
  complains : steps.countP (·.complaint.isSome) ≤ 1
  announces : steps.countP (·.announces) ≤ 1
  /-- If the job is not cancelled and the work ends, there is one step that announces it. It is the first one that ends the work, and
  from it on nothing is written. -/
  announced : (∀ t ∈ moments, t.cancelled = false) → (∃ step ∈ steps, step.next = .finished) →
    ∃ last < steps.length, ∀ (n : Nat) (t : Moment) (step : JobStep), moments[n]? = some t → steps[n]? = some step →
      (step.announces = true ↔ n = last) ∧ (step.next = .finished ↔ last ≤ n) ∧
        (last ≤ n → step.buffer = t.buffer ∧ step.complaint = none)
  /-- From the first step on at which the job is cancelled, it does nothing any more. -/
  cancelled : ∀ (c : Nat) (t : Moment), moments[c]? = some t → t.cancelled = true →
    ∀ (n : Nat) (t' : Moment) (step : JobStep), c ≤ n → moments[n]? = some t' → steps[n]? = some step → step.Idles t'

/-- What a step of a job can be. -/
inductive Paces (j : ParseJob) (t : Moment) (step : JobStep) : Prop where
  /-- The job is cancelled or over. -/
  | idle (before : t.cancelled = true ∨ j.phase = .done) (idles : step.Idles t) (ended : step.job.phase = .done)
  /-- The job announces that the annotations are renewed. -/
  | announce (live : t.cancelled = false) (before : j.phase = .announce) (announces : step.announces = true)
    (buffer : step.buffer = t.buffer) (complaint : step.complaint = none) (next : step.next = .finished)
    (ended : step.job.phase = .done)
  /-- The job clears the annotations or parses on. It complains only of what ends the parse. -/
  | work (live : t.cancelled = false) (before : j.phase = .clear ∨ j.phase = .parse) (silent : step.announces = false)
    (next : step.next = .again j.interval) (going : step.job.phase = .parse ∨ step.job.phase = .announce)
    (complaint : step.complaint.isSome = true → step.job.phase = .announce)

/-- Whether a job is over after so many steps at the latest: to clear takes one step, and to find that the parse has ended another
one after the slices that end it. -/
structure Within (j : ParseJob) (n : Nat) : Prop where
  clear : j.phase = .clear →
    ∃ slices, slices + 2 ≤ n ∧ (j.run.ahead j.sink.snapshot.stream (slices * j.stepsPerSlice)).phase ≠ .running
  parse : j.phase = .parse →
    ∃ slices, slices + 1 ≤ n ∧ (j.run.ahead j.sink.snapshot.stream (slices * j.stepsPerSlice)).phase ≠ .running

namespace EnduranceAux

variable {j : ParseJob} {t : Moment} {moments : List Moment}

theorem paces (j : ParseJob) (t : Moment) : j.Paces t (j.step t.cancelled t.buffer) := by
  unfold step
  split
  · next hc => exact .idle (.inl hc) ⟨rfl, rfl, rfl, rfl⟩ rfl
  · next hc =>
    have live : t.cancelled = false := by simpa using hc
    cases hp : j.phase with
    | clear => exact .work live (.inl hp) rfl rfl (.inl rfl) nofun
    | parse =>
      refine .work live (.inr hp) rfl rfl ?_ fun hcomplaint => ?_
      · dsimp only
        split
        · exact .inl rfl
        · exact .inr rfl
      · have hcomplaint : (j.slice t.buffer).2.complaint.isSome = true := hcomplaint
        refine if_neg fun hrun => ?_
        have hsilent := (j.sink.advance_listener j.sink.snapshot.stream j.stepsPerSlice j.run ⟨t.buffer, none⟩).2 hrun
        rw [slice, hsilent] at hcomplaint
        cases hcomplaint
    | announce => exact .announce live hp rfl rfl rfl rfl rfl
    | done => exact .idle (.inr hp) ⟨rfl, rfl, rfl, rfl⟩ hp

theorem length_steps (j : ParseJob) (moments : List Moment) : (j.steps moments).length = moments.length := by
  induction moments generalizing j with
  | nil => rfl
  | cons t ts ih => exact congrArg (· + 1) (ih _)

theorem steps_append (j : ParseJob) (moments more : List Moment) :
    j.steps (moments ++ more) = j.steps moments ++ (j.after moments).steps more := by
  induction moments generalizing j with
  | nil => rfl
  | cons t ts ih => exact congrArg _ (ih _)

/-! ### Jobs that are over -/

theorem idles_of_done (hp : j.phase = .done) {n : Nat} {t : Moment} {step : JobStep} (ht : moments[n]? = some t)
    (hs : (j.steps moments)[n]? = some step) : step.Idles t := by
  induction moments generalizing j n with
  | nil => cases ht
  | cons t' ts ih =>
    obtain ⟨-, idles, ended⟩ | ⟨-, before, -⟩ | ⟨-, before, -⟩ := paces j t'
    · cases n with
      | zero =>
        cases ht
        cases hs
        exact idles
      | succ n => exact ih ended ht hs
    · cases hp.symm.trans before
    · rcases before with before | before <;> cases hp.symm.trans before

theorem idles_of_cancelled {c n : Nat} {t t' : Moment} {step : JobStep} (hc : moments[c]? = some t) (ht : t.cancelled = true)
    (hn : c ≤ n) (ht' : moments[n]? = some t') (hs : (j.steps moments)[n]? = some step) : step.Idles t' := by
  induction moments generalizing j c n with
  | nil => cases hc
  | cons first ts ih =>
    cases c with
    | zero =>
      cases hc
      obtain ⟨-, idles, ended⟩ | ⟨live, -⟩ | ⟨live, -⟩ := paces j t
      · cases n with
        | zero =>
          cases ht'
          cases hs
          exact idles
        | succ n => exact idles_of_done ended (show ts[n]? = some t' from ht') hs
      · cases ht.symm.trans live
      · cases ht.symm.trans live
    | succ c =>
      obtain ⟨n, rfl⟩ := Nat.exists_eq_succ_of_ne_zero (show n ≠ 0 by omega)
      exact ih hc (Nat.le_of_succ_le_succ hn) ht' hs

/-! ### What is told -/

/-- After the parse nothing is complained of. -/
theorem silent (hp : j.phase = .announce ∨ j.phase = .done) : (j.steps moments).countP (·.complaint.isSome) = 0 := by
  induction moments generalizing j with
  | nil => rfl
  | cons t ts ih =>
    obtain ⟨-, idles, ended⟩ | ⟨-, -, -, -, complaint, -, ended⟩ | ⟨-, before, -⟩ := paces j t
    · rw [steps, List.countP_cons_of_neg (by simp [idles.complaint])]
      exact ih (.inr ended)
    · rw [steps, List.countP_cons_of_neg (by simp [complaint])]
      exact ih (.inr ended)
    · rcases hp with hp | hp <;> rcases before with before | before <;> cases hp.symm.trans before

/-- A complaint ends the parse, so it is the only one. -/
theorem complains_le_one (j : ParseJob) (moments : List Moment) : (j.steps moments).countP (·.complaint.isSome) ≤ 1 := by
  induction moments generalizing j with
  | nil => exact Nat.zero_le 1
  | cons t ts ih =>
    by_cases hsome : (j.step t.cancelled t.buffer).complaint.isSome = true
    · have ended : (j.step t.cancelled t.buffer).job.phase = .announce := by
        obtain ⟨-, idles, -⟩ | ⟨-, -, -, -, complaint, -⟩ | ⟨-, -, -, -, -, complaint⟩ := paces j t
        · rw [idles.complaint] at hsome
          cases hsome
        · rw [complaint] at hsome
          cases hsome
        · exact complaint hsome
      simp [steps, silent (.inl ended), hsome]
    · rw [steps, List.countP_cons, if_neg hsome]
      exact ih _

/-- A job that is over announces nothing, and one that announces is over. -/
theorem announces_le_one (j : ParseJob) (moments : List Moment) :
    (j.steps moments).countP (·.announces) ≤ if j.phase = .done then 0 else 1 := by
  induction moments generalizing j with
  | nil => exact Nat.zero_le _
  | cons t ts ih =>
    have later := ih (j.step t.cancelled t.buffer).job
    obtain ⟨-, idles, ended⟩ | ⟨-, before, announces, -, -, -, ended⟩ | ⟨-, before, silent, -⟩ := paces j t
    · rw [if_pos ended] at later
      rw [steps, List.countP_cons_of_neg (by simp [idles.announces])]
      exact Nat.le_trans later (Nat.zero_le _)
    · rw [if_pos ended] at later
      rw [steps, List.countP_cons_of_pos announces, before]
      exact Nat.succ_le_succ later
    · have going : j.phase ≠ .done := by rcases before with before | before <;> simp [before]
      rw [if_neg going, steps, List.countP_cons_of_neg (by simp [silent])]
      refine Nat.le_trans later ?_
      split <;> omega

/-- A job that is not cancelled announces its end with the first step that ends the work. -/
theorem announced (hp : j.phase ≠ .done) (live : ∀ t ∈ moments, t.cancelled = false)
    (ends : ∃ step ∈ j.steps moments, step.next = .finished) :
    ∃ last < (j.steps moments).length, ∀ (n : Nat) (t : Moment) (step : JobStep), moments[n]? = some t →
      (j.steps moments)[n]? = some step → (step.announces = true ↔ n = last) ∧ (step.next = .finished ↔ last ≤ n) ∧
        (last ≤ n → step.buffer = t.buffer ∧ step.complaint = none) := by
  induction moments generalizing j with
  | nil =>
    obtain ⟨step, hs, -⟩ := ends
    cases hs
  | cons t ts ih =>
    obtain ⟨before, -⟩ | ⟨-, before, announces, buffer, complaint, next, ended⟩ | ⟨-, before, silent, next, going, -⟩ :=
      paces j t
    · rcases before with before | before
      · cases before.symm.trans (live t (.head _))
      · exact absurd before hp
    · refine ⟨0, Nat.succ_pos _, fun n t' step ht hs => ?_⟩
      cases n with
      | zero =>
        cases ht
        cases hs
        simp [announces, buffer, complaint, next]
      | succ n =>
        have idles := idles_of_done ended (show ts[n]? = some t' from ht) hs
        simp [idles.announces, idles.next, idles.buffer, idles.complaint]
    · obtain ⟨last, hlast, hsteps⟩ := ih (j := (j.step t.cancelled t.buffer).job)
        (by rcases going with going | going <;> simp [going]) (fun t ht => live t (.tail _ ht)) (by
          obtain ⟨step, hs, hend⟩ := ends
          rcases List.mem_cons.1 hs with rfl | hs
          · cases hend.symm.trans next
          · exact ⟨step, hs, hend⟩)
      refine ⟨last + 1, Nat.succ_lt_succ hlast, fun n t' step ht hs => ?_⟩
      cases n with
      | zero =>
        cases ht
        cases hs
        simp [silent, next]
      | succ n =>
        obtain ⟨hannounces, hnext, hquiet⟩ := hsteps n t' step ht hs
        simp only [Nat.add_right_cancel_iff, Nat.add_le_add_iff_right]
        exact ⟨hannounces, hnext, hquiet⟩

/-! ### The end -/

theorem ahead_of_ended {r : Run} (h : r.phase ≠ .running) (s : Stream) (n : Nat) : r.ahead s n = r := by
  rw [Run.ahead, Run.advance_of_ended h]

/-- A slice after which the parse goes on is one of those that end it. -/
theorem slices_left {b : Buffer} {slices : Nat}
    (hend : (j.run.ahead j.sink.snapshot.stream (slices * j.stepsPerSlice)).phase ≠ .running)
    (hrun : (j.slice b).1.phase = .running) :
    ∃ left, slices = left + 1 ∧ ((j.slice b).1.ahead j.sink.snapshot.stream (left * j.stepsPerSlice)).phase ≠ .running := by
  have hsame : (j.slice b).1 = j.run.ahead j.sink.snapshot.stream j.stepsPerSlice := by
    rcases TerminationAux.follows_advance (l := j.sink.listener) (s := j.sink.snapshot.stream) j.run ⟨b, none⟩ j.stepsPerSlice
      with hsame | hfailed
    · exact hsame
    · rw [slice, hfailed] at hrun
      cases hrun
  cases slices with
  | zero =>
    have hended : j.run.phase ≠ .running := by rwa [Nat.zero_mul] at hend
    rw [hsame, ahead_of_ended hended] at hrun
    exact absurd hrun hended
  | succ left =>
    refine ⟨left, rfl, ?_⟩
    rwa [hsame, ← Run.ahead_add, Nat.add_comm, ← Nat.succ_mul]

/-- A step brings a job nearer to its end. -/
theorem within_step {n : Nat} (h : j.Within (n + 1)) (t : Moment) : (j.step t.cancelled t.buffer).job.Within n := by
  have ended {job : ParseJob} (hp : job.phase = .announce ∨ job.phase = .done) : job.Within n := by
    constructor <;> intro hp' <;> rcases hp with hp | hp <;> cases hp.symm.trans hp'
  unfold step
  split
  · exact ended (.inr rfl)
  split
  · next hp =>
    obtain ⟨slices, hle, hend⟩ := h.clear hp
    exact ⟨nofun, fun _ => ⟨slices, Nat.le_of_succ_le_succ hle, hend⟩⟩
  · next hp =>
    obtain ⟨slices, hle, hend⟩ := h.parse hp
    by_cases hrun : (j.slice t.buffer).1.phase = .running
    · obtain ⟨left, rfl, hleft⟩ := slices_left hend hrun
      exact ⟨by simp [hrun], fun _ => ⟨left, Nat.le_of_succ_le_succ hle, hleft⟩⟩
    · exact ended (.inl (if_neg hrun))
  · exact ended (.inr rfl)
  · next hp => exact ended (.inr hp)

theorem within_mono {m n : Nat} (h : j.Within m) (hle : m ≤ n) : j.Within n where
  clear hp := by
    obtain ⟨slices, hslices, hend⟩ := h.clear hp
    exact ⟨slices, by omega, hend⟩
  parse hp := by
    obtain ⟨slices, hslices, hend⟩ := h.parse hp
    exact ⟨slices, by omega, hend⟩

/-- The work of a job ends when it is due to. -/
theorem finishes {bound n : Nat} (h : j.Within bound) (hle : bound ≤ n) {step : JobStep}
    (hs : (j.steps moments)[n]? = some step) : step.next = .finished := by
  induction moments generalizing j bound n with
  | nil => cases hs
  | cons t ts ih =>
    cases n with
    | zero =>
      obtain rfl := Nat.le_zero.1 hle
      cases hs
      obtain ⟨-, idles, -⟩ | ⟨-, -, -, -, -, next, -⟩ | ⟨-, before, -⟩ := paces j t
      · exact idles.next
      · exact next
      · rcases before with before | before
        · obtain ⟨slices, hslices, -⟩ := h.clear before
          omega
        · obtain ⟨slices, hslices, -⟩ := h.parse before
          omega
    | succ n =>
      have nearer : (j.step t.cancelled t.buffer).job.Within n := within_step (within_mono h hle) t
      exact ih nearer (Nat.le_refl n) hs

/-- A job for a grammar that was built is over after some number of steps. -/
theorem exists_within {g : Grammar} (hg : g.Closed) (b : Buffer) (o : ParseOptions) :
    ∃ bound, (ParseJob.start g b o).Within bound := by
  obtain ⟨n, hend⟩ := TerminationAux.exists_finished hg (Sink.make b.snapshot o.errorColor).snapshot.stream o.maxDepth
  refine ⟨n + 2, fun _ => ⟨n, Nat.le_refl _, ?_⟩, nofun⟩
  -- every slice is at least one step
  have hle : n ≤ n * o.stepsPerSlice := Nat.le_mul_of_pos_right n (Nat.le_max_right _ _)
  obtain ⟨more, hmore⟩ := Nat.exists_eq_add_of_le hle
  have hended : ((Run.start g o.maxDepth).ahead (Sink.make b.snapshot o.errorColor).snapshot.stream n).phase ≠ .running := by
    rw [hend]
    nofun
  simp only [start]
  rw [hmore, Run.ahead_add, ahead_of_ended hended]
  exact hended

end EnduranceAux

open EnduranceAux

/-- Whatever is done to its document between its steps, a job for a grammar that was built comes to its end, complains at most once
and announces its end once, unless it is cancelled; and then it does nothing any more. -/
theorem exists_endures {g : Grammar} (hg : g.Closed) (b : Buffer) (o : ParseOptions) :
    ∃ bound, ∀ moments, Endures bound moments ((ParseJob.start g b o).steps moments) := by
  obtain ⟨bound, within⟩ := exists_within hg b o
  refine ⟨bound, fun moments => ?_⟩
  exact {
    length := length_steps _ _
    finishes := fun n step hs hle => finishes within hle hs
    complains := complains_le_one _ _
    announces := announces_le_one _ _
    announced := announced nofun
    cancelled := fun c t hc ht n t' step hn ht' hs => idles_of_cancelled hc ht hn ht' hs }

end ParseJob

end LiveHighlight
