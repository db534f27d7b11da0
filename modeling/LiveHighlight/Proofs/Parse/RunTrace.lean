import LiveHighlight.Proofs.Parse.Positions

/-!
# What a run over a built grammar tells and consumes

A step of a run over a grammar that was built does one of three things (`Stride`): a terminal is matched, a production is taken, or
an error is told and a character passed over. What the steps tell and consume one after the other is `Run.collect`, and it is the
same whoever listens (`collect_eq`). A listener that takes events about the stream hears the reading (`exists_course`), whose events
come in the order of the text and are about text that is there (`reading_sorted`, `reading_sits`).
-/

namespace LiveHighlight

/-- Some characters that stand together: the position of the first, and how many they are. -/
structure Span where
  offset : Nat
  length : Nat
  deriving DecidableEq, Repr

/-- Whether an event is an error. -/
def Event.isError : Event → Bool
  | .matched _ => false
  | .unmatched _ _ => true

/-- Whether an event is about an element of the grammar and text of the stream. -/
def Event.Sits (g : Grammar) (s : Stream) : Event → Prop
  | .matched m => m.stop ≤ s.length ∧ ∃ state ∈ g.states, ∃ production ∈ state.productions, m.element ∈ production
  | .unmatched _ position => position < s.length

namespace Run

/-- What the next step of a run tells. -/
def told (s : Stream) (r : Run) : Option Event :=
  if r.phase ≠ .running then none
  else match r.plan s with
    | .ok (some move) => move.event
    | _ => none

/-- What the next step of a run consumes: the text of the terminal that is to be matched next, or, with nothing pending, the
character at which it tells an error. A step that takes a production of a state consumes nothing. -/
def consumed (s : Stream) (r : Run) : Option Span :=
  if r.phase ≠ .running then none
  else match r.pending with
    | next :: _ => do
      let e ← (r.grammar.elementAt next.site).toOption
      let t ← e.terminal?
      let length ← t.matchAt s r.position
      return ⟨r.position, length⟩
    | [] =>
      match r.told s with
      | some (.unmatched _ position) => some ⟨position, 1⟩
      | _ => none

/-- What some steps of a run come to one after the other, given what each of them comes to. -/
def collect {σ β : Type} (l : Listener σ) (s : Stream) (each : Run → Option β) : (steps : Nat) → Run → σ → List β
  | 0, _, _ => []
  | steps + 1, r, memory =>
    (each r).toList ++ collect l s each steps (r.step l s memory).1 (r.step l s memory).2

/-- What a step of a run does and what it consumes: a terminal is matched, a production is taken, or an error is told and a
character passed over. -/
inductive Stride (s : Stream) (r : Run) : Move → Option Span → Prop
  | leaf {site : Site} {rest : List Pending} {e : Element} {t : Terminal} {length : Nat}
    (element : r.grammar.elementAt site = .ok e) (target : e.target = .terminal t)
    (matched : t.matchAt s r.position = some length) :
    Stride s r ⟨r.report e length none, r.position + length, rest⟩ (some ⟨r.position, length⟩)
  | opening {site : Site} {pending : List Pending} {e : Element} {id depth : Nat} {selection : Selection} {name : Option String}
    (element : r.grammar.elementAt site = .ok e) (target : e.target = .state id)
    (taken : r.grammar.select s depth id r.position = .ok (some selection)) :
    Stride s r ⟨r.report e selection.length name, r.position, pending⟩ none
  | error {e : Element} (inside : r.position < s.length) :
    Stride s r ⟨some (.unmatched e r.position), r.position + 1, []⟩ (some ⟨r.position, 1⟩)

/-- Whether a run stands in its stream and never faults. -/
structure Sound (s : Stream) (r : Run) : Prop where
  within : r.Within s
  plan : ∀ n fault, (r.ahead s n).plan s ≠ .error fault

end Run

/-- A listener that refuses nothing takes the events about any stream. -/
theorem Listener.Patient.takes {σ : Type} {l : Listener σ} (hl : l.Patient) (s : Stream) : l.Takes s fun _ => True :=
  fun memory event _ _ => ⟨hl memory event, trivial⟩

namespace RunTraceAux

variable {σ β : Type} {P : σ → Prop} {l : Listener σ} {g : Grammar} {s : Stream} {r : Run}

/-! ## One step -/

theorem stride_of_pending (hrun : r.phase = .running) {next : Pending} {rest : List Pending} (hp : r.pending = next :: rest)
    (hin : next.site ≠ .top) {move : Move} (h : r.moveAt s next rest = .ok move) : r.Stride s move (r.consumed s) := by
  simp only [Run.moveAt, bind, Except.bind] at h
  split at h
  · cases h
  · next e he =>
    split at h
    · next t ht =>
      split at h
      · cases h
      · next length hm =>
        obtain rfl := Except.ok.inj h
        have hc : r.consumed s = some ⟨r.position, length⟩ := by
          simp [Run.consumed, hrun, hp, he, Except.toOption, Element.terminal?, ht, hm]
        rw [hc]
        exact .leaf he ht hm
    · next id ht =>
      have hc : r.consumed s = none := by
        simp [Run.consumed, hrun, hp, he, Except.toOption, Element.terminal?, ht]
      rw [hc]
      split at h
      · cases h
      · next hsel =>
        split at h
        · split at h
          · next htop => exact absurd htop.1 hin
          · split at h
            · cases h
            · obtain rfl := Except.ok.inj h
              exact .opening he ht hsel
        · split at h
          · next htop => exact absurd htop hin
          · cases h

theorem stride_of_start (hrun : r.phase = .running) (hp : r.pending = []) (hin : r.position < s.length) {move : Move}
    (h : r.moveAt s ⟨.top, r.maxDepth⟩ [] = .ok move) (htold : r.told s = move.event) : r.Stride s move (r.consumed s) := by
  simp only [Run.moveAt, Grammar.elementAt, Grammar.startElement, bind, Except.bind] at h
  have error {e : Element} (he : move = ⟨some (.unmatched e r.position), r.position + 1, []⟩) :
      r.Stride s move (r.consumed s) := by
    have hc : r.consumed s = some ⟨r.position, 1⟩ := by simp [Run.consumed, hrun, hp, htold, he]
    rw [hc, he]
    exact .error hin
  split at h
  · cases h
  · next hsel =>
    split at h
    · split at h
      · exact error (Except.ok.inj h).symm
      · split at h
        · cases h
        · obtain rfl := Except.ok.inj h
          -- the element of the start state is never shown
          have hc : r.consumed s = none := by simp [Run.consumed, hrun, hp, htold, Run.report]
          rw [hc]
          exact .opening (show r.grammar.elementAt .top = .ok r.grammar.startElement from rfl) rfl hsel
    · split at h
      · exact error (Except.ok.inj h).symm
      · next hn => exact absurd trivial hn

/-- A run that stands in its stream takes one of the three kinds of steps. -/
theorem stride_of_plan (hr : r.Within s) (hrun : r.phase = .running) {move : Move} (h : r.plan s = .ok (some move)) :
    r.Stride s move (r.consumed s) := by
  have htold : r.told s = move.event := by simp [Run.told, hrun, h]
  obtain ⟨next, rest, hnext, hm⟩ := Run.moveAt_of_plan h
  rcases hnext with hp | ⟨hp, rfl, rfl, hin⟩
  · exact stride_of_pending hrun hp (hr.inside next (hp ▸ .head _)) hm
  · exact stride_of_start hrun hp hin hm htold

/-- What a step of a run does that does not fault. -/
theorem stride_or_rest (hr : r.Sound s) :
    (∃ move span, r.Stride s move span ∧ r.consumed s = span ∧ r.told s = move.event ∧
      (r.ahead s 1).position = move.position) ∨
      r.consumed s = none ∧ r.told s = none ∧ (r.ahead s 1).position = r.position := by
  rw [Run.ahead_one]
  by_cases hrun : r.phase = .running
  · cases hp : r.plan s with
    | error fault => exact absurd hp (hr.plan 0 fault)
    | ok found =>
      cases found with
      | none =>
        obtain ⟨hpending, -⟩ := Run.end_of_plan hp
        refine .inr ⟨?_, ?_, ?_⟩
        · simp [Run.consumed, Run.told, hrun, hpending, hp]
        · simp [Run.told, hrun, hp]
        · simp [Run.step, hrun, hp]
      | some move =>
        have hl : Listener.deaf.Patient := fun _ _ => rfl
        refine .inl ⟨move, _, stride_of_plan hr.within hrun hp, rfl, by simp [Run.told, hrun, hp], ?_⟩
        rw [ReadingAux.step_of_plan hl hrun hp]
        rfl
  · exact .inr ⟨by simp [Run.consumed, hrun], by simp [Run.told, hrun], by rw [Run.step_of_ended hrun]⟩

theorem grammar_ahead (s : Stream) (r : Run) : (r.ahead s 1).grammar = r.grammar := by
  rw [Run.ahead_one, Run.grammar_step]

/-! ## Some steps -/

theorem sound_ahead (hr : r.Sound s) (n : Nat) : (r.ahead s n).Sound s where
  within := hr.within.ahead n
  plan m fault := by
    rw [← Run.ahead_add]
    exact hr.plan (n + m) fault

theorem sound_start (hg : g.Closed) (s : Stream) (maxDepth : Nat) : (Run.start g maxDepth).Sound s :=
  ⟨Run.within_start g maxDepth s, Run.plan_ahead hg s maxDepth⟩

theorem collect_succ (s : Stream) (each : Run → Option β) (n : Nat) (r : Run) :
    r.collect .deaf s each (n + 1) () = (each r).toList ++ (r.ahead s 1).collect .deaf s each n () := by
  rw [Run.ahead_one]
  rfl

/-- What a run comes to is the same if somebody listens who takes events about the stream. -/
theorem collect_eq (hl : l.Takes s P) (hr : r.Sound s) (memory : σ) (hm : P memory) (each : Run → Option β) (n : Nat) :
    r.collect l s each n memory = r.collect .deaf s each n () := by
  induction n generalizing r memory with
  | zero => rfl
  | succ n ih =>
    obtain ⟨hstep, -, hkept⟩ := hr.within.step hl memory hm
    have hrest := ih (sound_ahead hr 1) (r.step l s memory).2 (hkept (hr.plan 0))
    rw [collect_succ, Run.collect, hstep, hrest]

/-- A listener that takes events about the stream hears what the next step tells. -/
theorem heard_step (hl : l.Takes s P) (hr : r.Sound s) (memory : σ) (hm : P memory) :
    (r.step l s memory).2 = l.after memory (r.told s).toList := by
  unfold Run.step Run.told
  split
  · rfl
  · split
    · next fault hp => exact absurd hp (hr.plan 0 fault)
    · next hp => simp only [hp]; rfl
    · next move hp =>
      simp only [hp]
      cases he : move.event with
      | none => rfl
      | some event =>
        have hpos := (hr.within.plan hp).2 event he
        obtain ⟨htaken, -⟩ := hl memory event hm (by rw [hpos]; exact hr.within.position)
        dsimp only
        split
        · next heard => simp [Listener.after, heard]
        · next heard =>
          rw [heard] at htaken
          cases htaken

/-- A listener that takes events about the stream hears what a run tells, step by step. -/
theorem heard_collect (hl : l.Takes s P) (hr : r.Sound s) (memory : σ) (hm : P memory) (n : Nat) :
    (r.advance l s n memory).2 = l.after memory (r.collect .deaf s (·.told s) n ()) := by
  induction n generalizing r memory with
  | zero => rfl
  | succ n ih =>
    obtain ⟨hstep, -, hkept⟩ := hr.within.step hl memory hm
    rw [Run.advance_succ, collect_succ, Listener.after_append, ← heard_step hl hr memory hm, hstep]
    exact ih (sound_ahead hr 1) _ (hkept (hr.plan 0))

/-- A listener that takes events about the stream has no say in a run, and hears what the run tells. -/
theorem advance_eq (hl : l.Takes s P) (hr : r.Sound s) (memory : σ) (hm : P memory) (n : Nat) :
    r.advance l s n memory = (r.ahead s n, l.after memory (r.collect .deaf s (·.told s) n ())) :=
  Prod.ext (hr.within.advance hl memory hm hr.plan).1 (heard_collect hl hr memory hm n)

/-! ## The whole run -/

/-- A notebook holds the events it has heard. -/
theorem after_notebook (events : List Event) : notebook.after #[] events = (events.map Note.heard).toArray := by
  have hpush (notes : Array Note) : notebook.after notes events = notes ++ (events.map Note.heard).toArray := by
    induction events generalizing notes with
    | nil => simp [Listener.after]
    | cons e events ih =>
      have hrest := ih (notes.push (.heard e))
      rw [Listener.after] at hrest ⊢
      rw [List.foldl_cons, show (notebook.hear notes e).1 = notes.push (.heard e) from rfl, hrest]
      simp
  simpa using hpush #[]

/-- A run over a closed grammar finishes at the end of its stream, and what it tells is the reading. -/
theorem exists_finish (hg : g.Closed) (s : Stream) (maxDepth : Nat) :
    ∃ n, ((Run.start g maxDepth).ahead s n).phase = .finished ∧ ((Run.start g maxDepth).ahead s n).position = s.length ∧
      (Run.start g maxDepth).collect .deaf s (·.told s) n () = g.reading s (max maxDepth 1) 0 := by
  have hl : notebook.Patient := fun _ _ => rfl
  have hsound := sound_start hg s maxDepth
  obtain ⟨r, hr, hplan, n, hn⟩ := ReadingAux.leads_reading (s := s) hg hl (max maxDepth 1) 0 (Run.start g maxDepth) #[]
    rfl rfl rfl rfl rfl
  rw [advance_eq (hl.takes s) hsound #[] trivial n, Prod.mk.injEq] at hn
  obtain ⟨rfl, hheard⟩ := hn
  refine ⟨n, hr, ?_, ?_⟩
  · have hend := (Run.end_of_plan hplan).2
    have hle := (hsound.within.ahead n).position
    omega
  · rw [after_notebook, after_notebook] at hheard
    exact List.map_injective_iff.2 (fun _ _ => Note.heard.inj) (by simpa using hheard)

/-! ## The events of a run -/

/-- Elements that match one after the other end in the stream, if each of them does. -/
theorem le_of_sequenceLength {lengthAt : Element → Nat → Except ParseFault (Option Nat)} {bound : Nat}
    (hlength : ∀ e pos n, lengthAt e pos = .ok (some n) → pos ≤ bound → pos + n ≤ bound) {es : List Element} {pos n : Nat}
    (h : sequenceLength lengthAt es pos = .ok (some n)) (hpos : pos ≤ bound) : pos + n ≤ bound := by
  induction es generalizing pos n with
  | nil =>
    obtain rfl : 0 = n := by simpa [sequenceLength] using h
    exact hpos
  | cons e es ih =>
    unfold sequenceLength at h
    split at h
    · cases h
    · cases h
    · next length hl =>
      obtain ⟨found, hrest, hn⟩ := BuildAux.map_eq_ok_iff.1 h
      obtain ⟨more, rfl, rfl⟩ := Option.map_eq_some_iff.1 hn
      have hle := ih hrest (hlength e pos length hl hpos)
      omega

/-- What a state takes is there. -/
theorem le_of_select {depth id pos : Nat} {selection : Selection} (h : g.select s depth id pos = .ok (some selection))
    (hpos : pos ≤ s.length) : pos + selection.length ≤ s.length := by
  induction depth generalizing id pos selection with
  | zero => cases h
  | succ depth ih =>
    obtain ⟨state, -, -, hlength⟩ := TreeAux.select_spec h
    refine le_of_sequenceLength ?_ hlength hpos
    intro e pos n he hle
    unfold Element.lengthAt at he
    split at he
    · exact Terminal.le_of_matchAt (Except.ok.inj he) hle
    · obtain ⟨found, hsel, hn⟩ := BuildAux.map_eq_ok_iff.1 he
      obtain ⟨taken, rfl, rfl⟩ := Option.map_eq_some_iff.1 hn
      exact ih hsel hle

/-- An element that is shown is one of the grammar: that of the start state never is. -/
theorem mem_of_elementAt {site : Site} {e : Element} (h : g.elementAt site = .ok e) :
    e = g.startElement ∨ ∃ state ∈ g.states, ∃ production ∈ state.productions, e ∈ production := by
  unfold Grammar.elementAt at h
  split at h
  · exact .inl (Except.ok.inj h).symm
  · split at h
    · cases h
    · next state hs =>
      split at h
      · next found hf =>
        obtain rfl := Except.ok.inj h
        obtain ⟨production, hp, he⟩ := Option.bind_eq_some_iff.1 hf
        exact .inr ⟨state, List.mem_of_getElem? hs, production, List.mem_of_getElem? hp, List.mem_of_getElem? he⟩
      · cases h

theorem sits_of_report {site : Site} {e : Element} (he : r.grammar.elementAt site = .ok e) {length : Nat}
    (hlength : r.position + length ≤ s.length) {name : Option String} {event : Event}
    (h : r.report e length name = some event) : event.Sits r.grammar s := by
  obtain ⟨hvisible, hevent⟩ := Option.ite_none_right_eq_some.1 h
  rw [← Option.some.inj hevent]
  refine ⟨hlength, ?_⟩
  rcases mem_of_elementAt he with rfl | hmem
  · cases hvisible
  · exact hmem

/-- What a step tells is about text that is there, and about where the run stands. -/
theorem sits_step (hr : r.Sound s) {event : Event} (h : r.told s = some event) :
    event.Sits r.grammar s ∧ event.position = r.position := by
  rcases stride_or_rest hr with ⟨move, span, hstride, -, htold, -⟩ | ⟨-, htold, -⟩
  · rw [h] at htold
    cases hstride with
    | leaf element target matched =>
      have hle := Terminal.le_of_matchAt matched hr.within.position
      exact ⟨sits_of_report element hle htold.symm, Run.position_of_report htold.symm⟩
    | opening element target taken =>
      have hle := le_of_select taken hr.within.position
      exact ⟨sits_of_report element hle htold.symm, Run.position_of_report htold.symm⟩
    | error inside =>
      rw [Option.some.inj htold]
      exact ⟨inside, rfl⟩
  · rw [h] at htold
    cases htold

theorem position_le (hr : r.Sound s) : r.position ≤ (r.ahead s 1).position := by
  rcases stride_or_rest hr with ⟨move, span, hstride, -, -, hpos⟩ | ⟨-, -, hpos⟩
  · rw [hpos]
    cases hstride <;> simp
  · exact Nat.le_of_eq hpos.symm

/-- A run tells of the text from where it stands on, and in its order. -/
theorem sorted_collect (hr : r.Sound s) (n : Nat) :
    (∀ event ∈ r.collect .deaf s (·.told s) n (), event.Sits r.grammar s ∧ r.position ≤ event.position) ∧
      (r.collect .deaf s (·.told s) n ()).Pairwise fun a b => a.position ≤ b.position := by
  induction n generalizing r with
  | zero => exact ⟨by simp [Run.collect], .nil⟩
  | succ n ih =>
    obtain ⟨hsits, hsorted⟩ := ih (sound_ahead hr 1)
    rw [grammar_ahead] at hsits
    have hmove := position_le hr
    rw [collect_succ]
    constructor
    · intro event he
      rcases List.mem_append.1 he with he | he
      · obtain ⟨hsit, hpos⟩ := sits_step hr (Option.mem_toList.1 he)
        exact ⟨hsit, Nat.le_of_eq hpos.symm⟩
      · exact ⟨(hsits event he).1, Nat.le_trans hmove (hsits event he).2⟩
    · refine List.pairwise_append.2 ⟨?_, hsorted, ?_⟩
      · cases r.told s with
        | none => exact .nil
        | some event => exact List.pairwise_singleton _ _
      · intro a ha b hb
        obtain ⟨-, hpos⟩ := sits_step hr (Option.mem_toList.1 ha)
        rw [hpos]
        exact Nat.le_trans hmove (hsits b hb).2

end RunTraceAux

open RunTraceAux

/-- The events of a reading are about elements of the grammar and text that is there, in the order of the text. -/
theorem reading_sits {g : Grammar} (hg : g.Closed) (s : Stream) (maxDepth : Nat) :
    (∀ event ∈ g.reading s (max maxDepth 1) 0, event.Sits g s) ∧
      (g.reading s (max maxDepth 1) 0).Pairwise fun a b => a.position ≤ b.position := by
  obtain ⟨n, -, -, htold⟩ := exists_finish hg s maxDepth
  have hsorted := sorted_collect (sound_start hg s maxDepth) n
  rw [htold] at hsorted
  exact ⟨fun event he => (hsorted.1 event he).1, hsorted.2⟩

/-- A listener that takes events about the stream hears the reading in some number of steps, the same for all such listeners, and
the run has then finished at the end of the stream. -/
theorem reading_heard {g : Grammar} (hg : g.Closed) (s : Stream) (maxDepth : Nat) :
    ∃ n, ∀ {σ : Type} {l : Listener σ} {P : σ → Prop} (memory : σ), l.Takes s P → P memory →
      ∃ r : Run, r.phase = .finished ∧ r.position = s.length ∧
        (Run.start g maxDepth).advance l s n memory = (r, l.after memory (g.reading s (max maxDepth 1) 0)) := by
  have hsound := sound_start hg s maxDepth
  obtain ⟨n, hphase, hpos, htold⟩ := exists_finish hg s maxDepth
  refine ⟨n, ?_⟩
  intro σ l P memory hl hm
  exact ⟨(Run.start g maxDepth).ahead s n, hphase, hpos, by rw [advance_eq hl hsound memory hm n, htold]⟩

end LiveHighlight
