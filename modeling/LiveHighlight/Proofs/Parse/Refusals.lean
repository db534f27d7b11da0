import LiveHighlight.Proofs.Parse.RunTrace

/-!
# Listeners that refuse

A listener has one say in a run: it can refuse an event, and then the run has failed. Until the first event that it refuses
(`Listener.refusal`) it hears what a listener hears that refuses nothing, and after it nothing but the fault. The run stays where
the event happened, and it cannot be brought to go on (`Grammar.refused`).
-/

namespace LiveHighlight

/-- The first of some events that a listener refuses when they are told to it one after the other: its number, counted from one,
and the fault. -/
def Listener.refusal {σ : Type} (l : Listener σ) : σ → List Event → Option (Nat × ParseFault)
  | _, [] => none
  | memory, e :: rest =>
    match l.hear memory e with
    | (_, some fault) => some (1, fault)
    | (memory, none) => (l.refusal memory rest).map fun (number, fault) => (number + 1, fault)

namespace RefusalAux

variable {σ : Type} {l : Listener σ} {s : Stream} {r : Run}

/-! ## One step -/

/-- A step that tells nothing is the same whoever listens. -/
theorem step_of_silent (hr : r.Sound s) (h : r.told s = none) (memory : σ) : r.step l s memory = (r.ahead s 1, memory) := by
  rw [Run.ahead_one]
  by_cases hrun : r.phase = .running
  · cases hp : r.plan s with
    | error fault => exact absurd hp (hr.plan 0 fault)
    | ok found =>
      cases found with
      | none => simp [Run.step, hrun, hp]
      | some move =>
        have he : move.event = none := by simpa [Run.told, hrun, hp] using h
        simp [Run.step, hrun, hp, he]
  · rw [Run.step_of_ended hrun, Run.step_of_ended hrun]

/-- A step that tells an event is that of a run that goes on. It goes where it goes if nobody listens, unless the event is
refused. -/
theorem step_of_told {e : Event} (h : r.told s = some e) (memory : σ) :
    r.phase = .running ∧ r.step l s memory =
      match l.hear memory e with
      | (memory, none) => (r.ahead s 1, memory)
      | (memory, some fault) => (r.fail, l.abort memory fault r.position) := by
  rw [Run.ahead_one]
  unfold Run.told at h
  split at h
  · cases h
  · next hrun =>
    have hrun : r.phase = .running := by simpa using hrun
    refine ⟨hrun, ?_⟩
    split at h
    · next move hp =>
      rcases hh : l.hear memory e with ⟨memory', refused⟩
      cases refused <;> simp [Run.step, hrun, hp, h, hh, Listener.deaf]
    · cases h

/-! ## Some steps -/

/-- A listener that refuses nothing of what some steps tell has no say in them, and hears it. -/
theorem advance_of_patience (hr : r.Sound s) (n : Nat) (memory : σ)
    (h : l.refusal memory (r.collect .deaf s (·.told s) n ()) = none) :
    r.advance l s n memory = (r.ahead s n, l.after memory (r.collect .deaf s (·.told s) n ())) := by
  induction n generalizing r memory with
  | zero => rfl
  | succ n ih =>
    rw [RunTraceAux.collect_succ] at h ⊢
    rw [Run.advance_succ, Nat.add_comm n 1, Run.ahead_add]
    cases ht : r.told s with
    | none =>
      rw [ht] at h
      rw [step_of_silent hr ht]
      exact ih (RunTraceAux.sound_ahead hr 1) memory h
    | some e =>
      rw [ht] at h
      rw [(step_of_told ht memory).2]
      simp only [Option.toList_some, List.singleton_append, Listener.refusal] at h
      rcases hh : l.hear memory e with ⟨memory', refused⟩
      rw [hh] at h
      cases refused with
      | some fault => cases h
      | none =>
        have hrest := ih (RunTraceAux.sound_ahead hr 1) memory' (by simpa using h)
        rw [hrest, Listener.after_append]
        simp [Listener.after, hh]

/-- Whether a run that would tell some events fails when it tells the one of a number, which the listener refuses with a fault. -/
def Fails (l : Listener σ) (s : Stream) (r : Run) (memory : σ) (events : List Event) (number : Nat) (fault : ParseFault) : Prop :=
  ∃ (steps : Nat) (heard : List Event) (e : Event) (rest : List Event),
    events = heard ++ e :: rest ∧ heard.length + 1 = number ∧
    (r.ahead s steps).phase = .running ∧ (r.ahead s steps).position = e.position ∧
    r.advance l s steps memory = (r.ahead s steps, l.after memory heard) ∧
    r.advance l s (steps + 1) memory = ((r.ahead s steps).fail, l.abort (l.after memory (heard ++ [e])) fault e.position)

/-- A run fails if it fails after a first step that the listener takes. -/
theorem Fails.later (told : List Event) {memory memory' : σ} {events : List Event} {number : Nat} {fault : ParseFault}
    (hstep : r.step l s memory = (r.ahead s 1, memory')) (htold : l.after memory told = memory')
    (h : Fails l s (r.ahead s 1) memory' events number fault) :
    Fails l s r memory (told ++ events) (told.length + number) fault := by
  obtain ⟨steps, heard, e, rest, hevents, hnumber, hrun, hpos, hbefore, hafter⟩ := h
  refine ⟨steps + 1, told ++ heard, e, rest, by rw [hevents, List.append_assoc], ?_, ?_⟩
  · rw [List.length_append]
    omega
  · rw [Nat.add_comm steps 1, Run.ahead_add, Nat.add_comm 1 steps, List.append_assoc, Listener.after_append,
      Listener.after_append l memory told, htold]
    refine ⟨hrun, hpos, ?_, ?_⟩
    · rw [Run.advance_succ, hstep, hbefore]
    · rw [Run.advance_succ, hstep, hafter]

/-- A run fails where its listener refuses one of the events that its steps would tell. -/
theorem fails_of_refusal (hr : r.Sound s) (n : Nat) (memory : σ) {number : Nat} {fault : ParseFault}
    (h : l.refusal memory (r.collect .deaf s (·.told s) n ()) = some (number, fault)) :
    Fails l s r memory (r.collect .deaf s (·.told s) n ()) number fault := by
  induction n generalizing r memory number with
  | zero => cases h
  | succ n ih =>
    rw [RunTraceAux.collect_succ] at h ⊢
    cases ht : r.told s with
    | none =>
      rw [ht] at h
      have hrest := ih (RunTraceAux.sound_ahead hr 1) memory h
      have hfails := Fails.later [] (step_of_silent hr ht memory) rfl hrest
      rwa [List.length_nil, Nat.zero_add] at hfails
    | some e =>
      obtain ⟨hrun, hstep⟩ := step_of_told (l := l) ht memory
      rw [ht] at h
      simp only [Option.toList_some, List.singleton_append, Listener.refusal] at h
      rcases hh : l.hear memory e with ⟨memory', refused⟩
      rw [hh] at h hstep
      cases refused with
      | some fault' =>
        -- the first event is the one that is refused
        obtain ⟨rfl, rfl⟩ := Prod.mk.inj (Option.some.inj h)
        have hpos := (RunTraceAux.sits_step hr ht).2
        refine ⟨0, [], e, _, rfl, rfl, hrun, hpos.symm, rfl, ?_⟩
        rw [Run.advance_succ, hstep, hpos]
        simp [Run.advance, Listener.after, hh, Run.ahead]
      | none =>
        obtain ⟨⟨number', fault'⟩, hrefusal, heq⟩ := Option.map_eq_some_iff.1 h
        obtain ⟨rfl, rfl⟩ := Prod.mk.inj heq
        have hrest := ih (RunTraceAux.sound_ahead hr 1) memory' hrefusal
        have hfails := Fails.later [e] hstep (by simp [Listener.after, hh]) hrest
        rwa [List.length_singleton, Nat.add_comm 1 number'] at hfails

end RefusalAux

open RefusalAux

/-- A listener that refuses an event of a run over a grammar that was built has heard exactly the events that a listener hears
first that refuses nothing, the refused one the last of them. Then it is told once of the fault and of the position of the event.
The run stays there with nothing pending, and it has failed for good: stepping on tells nothing and changes nothing. A listener
that refuses none of the events hears them all and is told of no fault, and the run finishes. -/
theorem Grammar.refused {spec : GrammarSpec} {registry : TerminalRegistry} {g : Grammar} (hg : spec.build registry = .ok g)
    (s : Stream) (maxDepth : Nat) :
    ∃ events : List Event, g.notes s maxDepth = (events.map Note.heard).toArray ∧
      ∀ {σ : Type} (l : Listener σ) (memory : σ),
        (∀ number fault, l.refusal memory events = some (number, fault) →
          ∃ (steps : Nat) (r r' : Run) (e : Event),
            1 ≤ number ∧ events[number - 1]? = some e ∧
            r.phase = .running ∧ r.position = e.position ∧
            (Run.start g maxDepth).advance l s steps memory = (r, l.after memory (events.take (number - 1))) ∧
            r'.phase = .failed ∧ r'.position = e.position ∧ r'.pending = [] ∧
            (Run.start g maxDepth).advance l s (steps + 1) memory =
              (r', l.abort (l.after memory (events.take number)) fault e.position) ∧
            (Run.start g maxDepth).toEnd l s memory =
              (r', l.abort (l.after memory (events.take number)) fault e.position) ∧
            ∀ (s' : Stream) (memory' : σ),
              r'.step l s' memory' = (r', memory') ∧ r'.toEnd l s' memory' = (r', memory')) ∧
        (l.refusal memory events = none →
          ∃ r : Run, r.phase = .finished ∧ r.position = s.length ∧
            (Run.start g maxDepth).toEnd l s memory = (r, l.after memory events)) := by
  have hc := closed_of_build hg
  have hsound := RunTraceAux.sound_start hc s maxDepth
  have hnotebook : notebook.Patient := fun _ _ => rfl
  obtain ⟨n, hphase, hpos, -⟩ := RunTraceAux.exists_finish hc s maxDepth
  have hadvance := RunTraceAux.advance_eq (hnotebook.takes s) hsound #[] trivial n
  refine ⟨(Run.start g maxDepth).collect .deaf s (·.told s) n (), ?_, ?_⟩
  · rw [Grammar.notes_of_advance hadvance (by simp [hphase]), RunTraceAux.after_notebook]
  intro σ l memory
  constructor
  · intro number fault hrefusal
    obtain ⟨steps, heard, e, rest, hevents, rfl, hrun, hat, hbefore, hafter⟩ := fails_of_refusal hsound n memory hrefusal
    have hfailed : ((Run.start g maxDepth).ahead s steps).fail.phase ≠ .running := by simp [Run.fail]
    have hfirst : (heard ++ e :: rest).take (heard.length + 1) = heard ++ [e] := List.take_length_add_append 1
    rw [hevents, Nat.add_sub_cancel, List.take_left, hfirst]
    refine ⟨steps, _, ((Run.start g maxDepth).ahead s steps).fail, e, by omega, by simp, hrun, hat, hbefore, rfl, hat, rfl,
      hafter, ?_, ?_⟩
    · exact Run.Leads.toEnd ⟨steps + 1, hafter⟩ hfailed
    · intro s' memory'
      exact ⟨Run.step_of_ended hfailed memory', Run.toEnd_of_ended hfailed memory'⟩
  · intro hpatient
    exact ⟨_, hphase, hpos, Run.Leads.toEnd ⟨n, advance_of_patience hsound n memory hpatient⟩ (by simp [hphase])⟩

/-- A listener that refuses the second match, which it is told at the second of two opening brackets. -/
theorem refused_brackets :
    let l := notebook.impatient ⟨some 2, none, .listener "the lines are gone"⟩
    let s := Stream.ofString "[[]]]"
    bracketSpec.build .standard = .ok brackets ∧
    ∃ events : List Event, brackets.notes s 3 = (events.map Note.heard).toArray ∧ events.length = 7 ∧
      l.refusal (#[], 0, 0) events = some (2, .listener "the lines are gone") ∧
      ∃ r : Run, r.phase = .failed ∧ r.position = 1 ∧
        (Run.start brackets 3).toEnd l s (#[], 0, 0) =
          (r, ((events.take 2).map Note.heard).toArray.push (.aborted (.listener "the lines are gone") 1), 2, 0) := by
  intro l s
  have hg : bracketSpec.build .standard = .ok brackets := by decide +kernel
  obtain ⟨events, hnotes, hrefused⟩ := Grammar.refused hg s 3
  have hend : ((Run.start brackets 3).advance notebook s 15 #[]).1.phase ≠ .running := by decide +kernel
  let token (lexeme : String) (position : Nat) : Event :=
    .matched ⟨⟨.terminal (.token lexeme), .plain, true, false⟩, position, 1, none⟩
  let pair (position length : Nat) : Event := .matched ⟨⟨.state 0, .plain, true, true⟩, position, length, some "start"⟩
  have hevents : events = [token "[" 0, pair 1 2, token "[" 1, pair 2 0, token "]" 2, token "]" 3,
      .unmatched brackets.startElement 4] := by
    rw [Grammar.notes_of_advance rfl hend] at hnotes
    refine List.map_injective_iff.2 (fun _ _ => Note.heard.inj) (List.toArray_inj (hnotes.symm.trans ?_))
    decide +kernel
  have hrefusal : l.refusal (#[], 0, 0) events = some (2, .listener "the lines are gone") := by
    rw [hevents]
    rfl
  subst hevents
  obtain ⟨steps, -, r, e, -, he, -, -, -, hphase, hpos, -, -, htoEnd, -⟩ := (hrefused l (#[], 0, 0)).1 2 _ hrefusal
  obtain rfl : pair 1 2 = e := Option.some.inj he
  exact ⟨hg, _, hnotes, rfl, hrefusal, r, hphase, hpos, htoEnd⟩

end LiveHighlight
