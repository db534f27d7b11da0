import LiveHighlight.Proofs.Parse.Positions

/-!
# Runs end

A run over a grammar that was built ends after a number of steps that the stream and the depth budget bound, whoever listens
(`Grammar.runs_end`). What a listener has to say in a run is to end it sooner: with any listener a run is where it would be if
nobody listened, or it has failed (`follows_advance`). The run to which nobody listens ends with the reading of the stream, which
passes over a character or a match that is not empty at a time.
-/

namespace LiveHighlight

namespace TerminationAux

variable {σ : Type} {l : Listener σ} {s : Stream}

/-- A step goes where it would go if nobody listened, or it fails. -/
theorem follows_step (r : Run) (memory : σ) :
    (r.step l s memory).1 = r.ahead s 1 ∨ (r.step l s memory).1.phase = .failed := by
  rw [Run.ahead_one]
  unfold Run.step
  split
  · exact .inl rfl
  · split
    · exact .inl rfl
    · exact .inl rfl
    · split
      · exact .inl rfl
      · split
        · exact .inl rfl
        · exact .inr rfl

/-- After some steps a run is where it would be if nobody listened, or it has failed. -/
theorem follows_advance (r : Run) (memory : σ) (n : Nat) :
    (r.advance l s n memory).1 = r.ahead s n ∨ (r.advance l s n memory).1.phase = .failed := by
  induction n generalizing r memory with
  | zero => exact .inl rfl
  | succ n ih =>
    rw [Run.advance_succ]
    rcases follows_step (l := l) (s := s) r memory with hstep | hfailed
    · rw [Nat.add_comm n 1, Run.ahead_add, ← hstep]
      exact ih _ _
    · -- a run that has failed stays failed
      right
      rw [Run.advance_of_ended (by simp [hfailed])]
      exact hfailed

/-- If nobody listens, a run over a closed grammar finishes. -/
theorem exists_finished {g : Grammar} (hg : g.Closed) (s : Stream) (maxDepth : Nat) :
    ∃ bound, ((Run.start g maxDepth).ahead s bound).phase = .finished := by
  have hl : Listener.deaf.Patient := fun _ _ => rfl
  obtain ⟨r, hr, -, bound, hbound⟩ :=
    ReadingAux.leads_reading (s := s) hg hl (max maxDepth 1) 0 (Run.start g maxDepth) () rfl rfl rfl rfl rfl
  refine ⟨bound, ?_⟩
  rw [Run.ahead, hbound]
  exact hr

end TerminationAux

open TerminationAux

/-- A run over a grammar that was built ends, however its states refer to each other and whatever they take. There is a number
of steps after which no run over the stream goes on, whoever listens, and stepping until the end is taking these steps. -/
theorem Grammar.runs_end {spec : GrammarSpec} {registry : TerminalRegistry} {g : Grammar} (hg : spec.build registry = .ok g)
    (s : Stream) (maxDepth : Nat) :
    ∃ bound, ∀ {σ : Type} (l : Listener σ) (memory : σ),
      (∀ n, bound ≤ n → ((Run.start g maxDepth).advance l s n memory).1.phase ≠ .running) ∧
      (Run.start g maxDepth).toEnd l s memory = (Run.start g maxDepth).advance l s bound memory := by
  obtain ⟨bound, hbound⟩ := exists_finished (closed_of_build hg) s maxDepth
  refine ⟨bound, ?_⟩
  intro σ l memory
  have hended : ((Run.start g maxDepth).advance l s bound memory).1.phase ≠ .running := by
    rcases follows_advance (l := l) (s := s) (Run.start g maxDepth) memory bound with hsame | hfailed
    · rw [hsame, hbound]
      simp
    · rw [hfailed]
      simp
  refine ⟨?_, Run.Leads.toEnd ⟨bound, rfl⟩ hended⟩
  intro n hn
  obtain ⟨more, rfl⟩ := Nat.exists_eq_add_of_le hn
  rw [Run.advance_add, Run.advance_of_ended hended]
  exact hended

/-- Two states that begin with each other and with themselves, each of which may take nothing. -/
def cyclicSpec : GrammarSpec :=
  let reference (state : String) : ElementSpec := { ElementSpec.blank with state }
  let terminal (cls : String) (value : Option String) : ElementSpec := { ElementSpec.blank with terminal := cls, value }
  ⟨"cyclic", none,
    [⟨"start", [[reference "start", reference "other", terminal "token" "a"], [reference "other"], [terminal "empty" none]]⟩,
     ⟨"other", [[reference "other", reference "start", reference "other"], [reference "start"], [terminal "empty" none]]⟩]⟩

/-- The grammar of `cyclicSpec`. -/
def cyclic : Grammar :=
  let reference (id : Nat) : Element := ⟨.state id, .plain, false, false⟩
  let nothing : Element := ⟨.terminal .empty, .plain, false, false⟩
  ⟨"cyclic",
    [⟨"start", [[reference 0, reference 1, ⟨.terminal (.token "a"), .plain, true, false⟩], [reference 1], [nothing]]⟩,
     ⟨"other", [[reference 1, reference 0, reference 1], [reference 0], [nothing]]⟩], 0⟩

/-- Runs over states that begin with each other end. -/
theorem runs_end_cyclic :
    cyclicSpec.build .standard = .ok cyclic ∧
    ∃ bound, ∀ {σ : Type} (l : Listener σ) (memory : σ),
      (∀ n, bound ≤ n → ((Run.start cyclic 5).advance l (.ofString "aab") n memory).1.phase ≠ .running) ∧
      (Run.start cyclic 5).toEnd l (.ofString "aab") memory = (Run.start cyclic 5).advance l (.ofString "aab") bound memory :=
  have hg : cyclicSpec.build .standard = .ok cyclic := by decide +kernel
  ⟨hg, Grammar.runs_end hg (.ofString "aab") 5⟩

end LiveHighlight
