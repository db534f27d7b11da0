import LiveHighlight.Proofs.Parse.Faults
import LiveHighlight.Proofs.Parse.Language

/-!
# Runs over a text that changes

A step of a run reads the text as it is at the moment. What is pending was taken in view of the text as it was, so after a change it
may not match any more, and then the run fails. Nothing worse can happen: whatever becomes of the text between the steps, a run never
goes back, what it tells of a match is so of the text as it then is, and the one fault that it can end with is the last that it tells
(`Grammar.withstands`). A run that has finished goes on saying so where the text has grown since (`withstands_outgrown`).
-/

namespace LiveHighlight

/-- What happens while a run is under way: it takes a step, or the text is replaced by another one. -/
inductive Happening where
  | step
  | replaced (text : Stream)
  deriving DecidableEq, Repr

/-- A run, the text as it is at the moment, and the memory of the listener. -/
structure Scene (σ : Type) where
  run : Run
  text : Stream
  memory : σ

namespace Run

/-- What the next step of a run tells a listener that refuses nothing: an event, or the fault that ends the run. -/
def note (s : Stream) (r : Run) : Option Note :=
  if r.phase ≠ .running then none
  else match r.plan s with
    | .ok (some move) => move.event.map .heard
    | .ok none => none
    | .error fault => some (.aborted fault r.position)

/-- What a run can do with the element that is next, the others being `rest`: a terminal is matched, a production is taken, or an error
is told at the top level and a character passed over. -/
inductive Moved (s : Stream) (r : Run) (next : Pending) (rest : List Pending) : Move → Prop
  | leaf {e : Element} {t : Terminal} {length : Nat} (target : e.target = .terminal t)
    (matched : t.matchAt s r.position = some length) :
    Moved s r next rest ⟨r.report e length none, r.position + length, rest⟩
  | opening {e : Element} {id : Nat} {selection : Selection} {children : List Pending} {name : Option String}
    (target : e.target = .state id) (taken : r.grammar.select s next.depth id r.position = .ok (some selection)) :
    Moved s r next rest ⟨r.report e selection.length name, r.position, children ++ rest⟩
  | error {e : Element} (top : next.site = .top) : Moved s r next rest ⟨some (.unmatched e r.position), r.position + 1, rest⟩

end Run

/-- What a listener remembers that is told some notes one after the other and refuses nothing. -/
def Listener.noted {σ : Type} (l : Listener σ) (memory : σ) (notes : List Note) : σ :=
  notes.foldl (fun memory note => match note with
    | .heard event => (l.hear memory event).1
    | .aborted fault position => l.abort memory fault position) memory

/-- A listener that refuses nothing does not decline an event. -/
theorem Listener.Patient.hear_ne {σ : Type} {l : Listener σ} (hl : l.Patient) {memory memory' : σ} {event : Event}
    {fault : ParseFault} : l.hear memory event ≠ (memory', some fault) := by
  intro hears
  have hpatient := hl memory event
  rw [hears] at hpatient
  cases hpatient

theorem Listener.noted_append {σ : Type} (l : Listener σ) (memory : σ) (a b : List Note) :
    l.noted memory (a ++ b) = l.noted (l.noted memory a) b := List.foldl_append

namespace Scene

variable {σ : Type}

/-- The scene after something has happened. -/
def next (l : Listener σ) (scene : Scene σ) : Happening → Scene σ
  | .step =>
    let (run, memory) := scene.run.step l scene.text scene.memory
    { scene with run, memory }
  | .replaced text => { scene with text }

/-- The scene after some things have happened one after the other. -/
def after (l : Listener σ) (scene : Scene σ) (history : List Happening) : Scene σ := history.foldl (next l) scene

/-- What is told while some things happen one after the other. -/
def told (l : Listener σ) (scene : Scene σ) : List Happening → List Note
  | [] => []
  | .step :: rest => (scene.run.note scene.text).toList ++ (scene.next l .step).told l rest
  | .replaced text :: rest => (scene.next l (.replaced text)).told l rest

end Scene

namespace Run

variable {σ : Type} {l : Listener σ} {s : Stream} {r : Run} {notes : List Note}

theorem moved_of_moveAt {next : Pending} {rest : List Pending} {move : Move} (h : r.moveAt s next rest = .ok move) :
    r.Moved s next rest move := by
  simp only [moveAt, bind, Except.bind] at h
  split at h
  · cases h
  · split at h
    · next t ht =>
      split at h
      · cases h
      · next length hm =>
        obtain rfl := Except.ok.inj h
        exact .leaf ht hm
    · next id ht =>
      split at h
      · cases h
      · next hsel =>
        split at h
        · split at h
          · next htop =>
            obtain rfl := Except.ok.inj h
            exact .error htop.1
          · split at h
            · cases h
            · obtain rfl := Except.ok.inj h
              exact .opening ht hsel
        · split at h
          · next htop =>
            obtain rfl := Except.ok.inj h
            exact .error htop
          · cases h

/-- A run never goes back. -/
theorem position_le_step (r : Run) (memory : σ) : r.position ≤ (r.step l s memory).1.position := by
  have follow {move : Move} (planned : r.plan s = .ok (some move)) : r.position ≤ (r.follow move).position := by
    obtain ⟨next, rest, -, hm⟩ := moveAt_of_plan planned
    have hmoved := moved_of_moveAt hm
    cases hmoved with
    | leaf => exact Nat.le_add_right _ _
    | opening => exact Nat.le_refl _
    | error => exact Nat.le_succ _
  have h := stepped (l := l) (s := s) r memory
  generalize r.step l s memory = x at h
  cases h with
  | ended | faulty | finished | declined => exact Nat.le_refl _
  | silent _ planned | heard _ planned => exact follow planned

/-- A listener that refuses nothing is told the note of a step. -/
theorem memory_step (hl : l.Patient) (r : Run) (memory : σ) : (r.step l s memory).2 = l.noted memory (r.note s).toList := by
  have h := stepped (l := l) (s := s) r memory
  generalize r.step l s memory = x at h
  cases h with
  | ended gone => simp [note, gone, Listener.noted]
  | faulty running planned => simp [note, running, planned, Listener.noted]
  | finished running planned => simp [note, running, planned, Listener.noted]
  | silent running planned untold => simp [note, running, planned, untold, Listener.noted]
  | heard running planned told hears => simp [note, running, planned, told, hears, Listener.noted]
  | declined _ _ _ hears => exact absurd hears hl.hear_ne

/-- An event is told of a move that is planned. -/
theorem exists_plan_of_note {event : Event} (h : r.note s = some (.heard event)) :
    ∃ move, r.plan s = .ok (some move) ∧ move.event = some event := by
  unfold note at h
  split at h
  · cases h
  · split at h
    · next move planned =>
      obtain ⟨_, told, ⟨⟩⟩ := Option.map_eq_some_iff.1 h
      exact ⟨move, planned, told⟩
    · cases h
    · cases h

/-- The match of a terminal that is told is one of the text as it is. -/
theorem matchAt_of_moved {next : Pending} {rest : List Pending} {move : Move} (h : r.Moved s next rest move) {m : Match}
    (told : move.event = some (.matched m)) {t : Terminal} (ht : m.element.target = .terminal t) :
    t.matchAt s m.offset = some m.length := by
  cases h with
  | leaf target matched =>
    obtain ⟨-, ⟨⟩⟩ := Option.ite_none_right_eq_some.1 told
    obtain rfl := Target.terminal.inj (target.symm.trans ht)
    exact matched
  | opening target =>
    obtain ⟨-, ⟨⟩⟩ := Option.ite_none_right_eq_some.1 told
    cases target.symm.trans ht
  | error => cases told

/-- A run that a step finishes has nothing pending and stands at the end of the text or past it. -/
theorem end_of_finish {memory : σ} (running : r.phase = .running) (finished : (r.step l s memory).1.phase = .finished) :
    (r.step l s memory).1.pending = [] ∧ s.length ≤ (r.step l s memory).1.position := by
  have h := stepped (l := l) (s := s) r memory
  generalize r.step l s memory = x at h finished
  cases h with
  | ended gone => exact absurd running gone
  | faulty | declined => cases finished
  | silent | heard => cases running.symm.trans finished
  | finished _ planned =>
    obtain ⟨hpending, hend⟩ := end_of_plan planned
    exact ⟨hpending, Nat.not_lt.1 hend⟩

/-- A step that ends a run leaves nothing pending. -/
theorem pending_of_step (h : r.phase ≠ .running → r.pending = []) (memory : σ) :
    (r.step l s memory).1.phase ≠ .running → (r.step l s memory).1.pending = [] := by
  have hstep := stepped (l := l) (s := s) r memory
  generalize r.step l s memory = x at hstep
  cases hstep with
  | ended => exact h
  | faulty | declined => exact fun _ => rfl
  | finished _ planned => exact fun _ => (end_of_plan planned).1
  | silent running | heard running => exact fun gone => absurd running gone

/-- Whether some notes are what a run over a grammar without open references can have told until now. A run that has not failed has
told events, and one that has failed, after them, that something does not match any more where it stands. A run that has ended has
nothing pending. -/
structure Recorded (r : Run) (notes : List Note) : Prop where
  rooted : r.Rooted
  told : (r.phase ≠ .failed ∧ ∃ events : List Event, notes = events.map .heard) ∨
    r.phase = .failed ∧ ∃ (events : List Event) (element : String),
      notes = events.map .heard ++ [.aborted (.inconsistent element r.position) r.position]
  ended : r.phase ≠ .running → r.pending = []

theorem recorded_start {g : Grammar} (hg : g.Closed) (maxDepth : Nat) : (start g maxDepth).Recorded [] :=
  ⟨rooted_start hg maxDepth, .inl ⟨by simp [start], [], rfl⟩, fun _ => rfl⟩

/-- A run that is under way has told events. -/
theorem Recorded.exists_events (h : r.Recorded notes) (running : r.phase = .running) :
    ∃ events : List Event, notes = events.map .heard := by
  rcases h.told with ⟨-, hevents⟩ | ⟨failed, -⟩
  · exact hevents
  · cases running.symm.trans failed

/-- A step adds its note to what was told, whatever the text. -/
theorem Recorded.step (h : r.Recorded notes) (hl : l.Patient) (s : Stream) (memory : σ) :
    (r.step l s memory).1.Recorded (notes ++ (r.note s).toList) := by
  refine ⟨h.rooted.step l s memory, ?_, pending_of_step h.ended memory⟩
  have hstep := stepped (l := l) (s := s) r memory
  generalize r.step l s memory = x at hstep
  cases hstep with
  | ended gone =>
    rw [note, if_pos gone, Option.toList_none, List.append_nil]
    exact h.told
  | faulty running planned =>
    obtain ⟨events, rfl⟩ := h.exists_events running
    obtain ⟨element, rfl⟩ := h.rooted.inconsistent_of_plan planned
    refine .inr ⟨rfl, events, element, ?_⟩
    simp [note, running, planned, fail]
  | finished running planned =>
    obtain ⟨events, rfl⟩ := h.exists_events running
    exact .inl ⟨by simp, events, by simp [note, running, planned]⟩
  | silent running planned untold =>
    obtain ⟨events, rfl⟩ := h.exists_events running
    exact .inl ⟨by simp [follow, running], events, by simp [note, running, planned, untold]⟩
  | @heard _ event _ running planned told =>
    obtain ⟨events, rfl⟩ := h.exists_events running
    exact .inl ⟨by simp [follow, running], events ++ [event], by simp [note, running, planned, told]⟩
  | declined _ _ _ hears => exact absurd hears hl.hear_ne

end Run

namespace Scene

variable {σ : Type} {l : Listener σ} {scene : Scene σ} {notes : List Note}

/-- What is told is all that the listener comes to know, and all that the run has told. The induction is on what happens. -/
theorem recorded_after (hl : l.Patient) (h : scene.run.Recorded notes) (history : List Happening) :
    (scene.after l history).run.Recorded (notes ++ scene.told l history) ∧
      (scene.after l history).memory = l.noted scene.memory (scene.told l history) := by
  induction history generalizing scene notes with
  | nil =>
    rw [told, List.append_nil]
    exact ⟨h, rfl⟩
  | cons happening rest ih =>
    cases happening with
    | step =>
      have hstep : (scene.next l .step).run.Recorded (notes ++ (scene.run.note scene.text).toList) :=
        h.step hl scene.text scene.memory
      obtain ⟨hrest, hmemory⟩ := ih hstep
      have hnote : (scene.next l .step).memory = l.noted scene.memory (scene.run.note scene.text).toList :=
        Run.memory_step hl scene.run scene.memory
      rw [told, Listener.noted_append, ← hnote, ← List.append_assoc]
      exact ⟨hrest, hmemory⟩
    | replaced text =>
      have hnext : (scene.next l (.replaced text)).run.Recorded notes := h
      exact ih hnext

/-- A run never goes back. -/
theorem position_le_after (l : Listener σ) (scene : Scene σ) (history : List Happening) :
    scene.run.position ≤ (scene.after l history).run.position := by
  induction history generalizing scene with
  | nil => exact Nat.le_refl _
  | cons happening rest ih =>
    refine Nat.le_trans ?_ (ih (scene.next l happening))
    cases happening with
    | step => exact Run.position_le_step scene.run scene.memory
    | replaced => exact Nat.le_refl _

/-- A run that has ended stays as it is, whatever the text becomes, and nothing more is told. -/
theorem after_of_ended (ended : scene.run.phase ≠ .running) (history : List Happening) :
    (scene.after l history).run = scene.run ∧ (scene.after l history).memory = scene.memory ∧ scene.told l history = [] := by
  induction history generalizing scene with
  | nil => exact ⟨rfl, rfl, rfl⟩
  | cons happening rest ih =>
    cases happening with
    | step =>
      have hnext : scene.next l .step = scene := by rw [next, Run.step_of_ended ended]
      have hnote : scene.run.note scene.text = none := if_pos ended
      rw [told, hnote, hnext]
      rw [after, List.foldl_cons, hnext]
      exact ih ended
    | replaced text =>
      have hnext : (scene.next l (.replaced text)).run.phase ≠ .running := ended
      exact ih hnext

end Scene

/-- A run over a grammar that was built is told to a listener that refuses nothing, and between its steps the text is replaced by any
other ones. Until any moment the listener has been told events, and, if the run has failed, at last and once that something does not
match any more at the position where the run stands. From then on the run never goes back. The match that the next step tells is of
text that is there as the text is now, if it is of any, and if it is that of a terminal, the terminal matches there. Where the next
step says that the run has finished, nothing is pending, and where it is the first to say so, the run stands at or past the end of the
text as it is now. A run that has ended stays as it is, whatever the text becomes. -/
theorem Grammar.withstands {σ : Type} {spec : GrammarSpec} {registry : TerminalRegistry} {g : Grammar}
    (hg : spec.build registry = .ok g) {l : Listener σ} (hl : l.Patient) (maxDepth : Nat) (s : Stream) (memory : σ)
    (history : List Happening) :
    let start : Scene σ := ⟨.start g maxDepth, s, memory⟩
    let scene := start.after l history
    let stepped := scene.next l .step
    scene.memory = l.noted memory (start.told l history) ∧
    (scene.run.phase ≠ .failed ∧ (∃ events : List Event, start.told l history = events.map .heard) ∨
      scene.run.phase = .failed ∧ ∃ (events : List Event) (element : String),
        start.told l history = events.map .heard ++ [.aborted (.inconsistent element scene.run.position) scene.run.position]) ∧
    (∀ more, scene.run.position ≤ (scene.after l more).run.position) ∧
    (∀ m, scene.run.note scene.text = some (.heard (.matched m)) →
      (0 < m.length → m.stop ≤ scene.text.length) ∧
      ∀ t, m.element.target = .terminal t → t.matchAt scene.text m.offset = some m.length) ∧
    (stepped.run.phase = .finished → stepped.run.pending = [] ∧
      (scene.run.phase ≠ .finished → scene.text.length ≤ stepped.run.position)) ∧
    (scene.run.phase ≠ .running → ∀ more,
      (scene.after l more).run = scene.run ∧ (scene.after l more).memory = scene.memory ∧ scene.told l more = []) := by
  intro start scene stepped
  have hstart : start.run.Recorded [] := Run.recorded_start (closed_of_build hg) maxDepth
  obtain ⟨hrecorded, hmemory⟩ := Scene.recorded_after hl hstart history
  rw [List.nil_append] at hrecorded
  refine ⟨hmemory, hrecorded.told, Scene.position_le_after l scene, ?_, ?_, Scene.after_of_ended⟩
  · intro m hm
    obtain ⟨move, planned, told⟩ := Run.exists_plan_of_note hm
    obtain ⟨next, rest, -, hmove⟩ := Run.moveAt_of_plan planned
    have hheld := (LanguageAux.faithful_of_moveAt hmove told).1
    exact ⟨hheld.inside, fun t => Run.matchAt_of_moved (Run.moved_of_moveAt hmove) told⟩
  · intro finished
    by_cases running : scene.run.phase = .running
    · obtain ⟨hpending, hend⟩ := Run.end_of_finish running finished
      exact ⟨hpending, fun _ => hend⟩
    · have hstepped : stepped = scene := by
        unfold stepped
        rw [Scene.next, Run.step_of_ended running]
      rw [hstepped] at finished ⊢
      exact ⟨hrecorded.ended running, fun first => absurd finished first⟩

/-- Half of a pair of brackets is matched when the other half is taken out of the text: what is told of the first half is so of the new
text, the run fails where the second half was, and putting it back does not help. -/
theorem withstands_swapped :
    let start : Scene (Array Note) := ⟨.start brackets 3, .ofString "[]", #[]⟩
    let early := start.after notebook [.step, .replaced (.ofString "[x")]
    let history := [.step, .replaced (.ofString "[x"), .step, .step, .step, .step]
    let late := start.after notebook history
    let bracket : Match := ⟨⟨.terminal (.token "["), .plain, true, false⟩, 0, 1, none⟩
    bracketSpec.build .standard = .ok brackets ∧ notebook.Patient ∧
      early.run.note early.text = some (.heard (.matched bracket)) ∧ bracket.stop ≤ early.text.length ∧
      (Terminal.token "[").matchAt early.text 0 = some 1 ∧
      late.run.phase = .failed ∧ late.run.position = 1 ∧
      (∃ (events : List Event) (element : String),
        start.told notebook history = events.map .heard ++ [.aborted (.inconsistent element 1) 1]) ∧
      (late.after notebook [.replaced (.ofString "[]"), .step]).run = late.run := by
  intro start early history late bracket
  have hg : bracketSpec.build .standard = .ok brackets := by decide +kernel
  have hl : notebook.Patient := fun _ _ => rfl
  have hnote : early.run.note early.text = some (.heard (.matched bracket)) := by decide +kernel
  have hfailed : late.run.phase = .failed := by decide +kernel
  have hposition : late.run.position = 1 := by decide +kernel
  obtain ⟨-, -, -, hmatch, -⟩ := Grammar.withstands hg hl 3 (.ofString "[]") #[] [.step, .replaced (.ofString "[x")]
  obtain ⟨hinside, hterminal⟩ := hmatch bracket hnote
  obtain ⟨-, htold, -, -, -, hended⟩ := Grammar.withstands hg hl 3 (.ofString "[]") #[] history
  have hlate : Scene.after notebook ⟨.start brackets 3, .ofString "[]", #[]⟩ history = late := rfl
  rw [hlate, hfailed, hposition] at htold
  rw [hlate, hfailed] at hended
  exact ⟨hg, hl, hnote, hinside (by decide), hterminal _ rfl, hfailed, hposition, (htold.resolve_left fun h => h.1 rfl).2,
    (hended nofun _).1⟩

/-- A run that has finished says so again when the text has grown, and does not stand at the end of the text as it is then. -/
theorem withstands_outgrown :
    let start : Scene (Array Note) := ⟨.start brackets 3, .ofString "", #[]⟩
    let scene := start.after notebook [.step, .replaced (.ofString "abc")]
    let stepped := scene.next notebook .step
    bracketSpec.build .standard = .ok brackets ∧ notebook.Patient ∧
      stepped.run.phase = .finished ∧ stepped.run.pending = [] ∧ ¬ scene.text.length ≤ stepped.run.position := by
  intro start scene stepped
  have hl : notebook.Patient := fun _ _ => rfl
  exact ⟨by decide +kernel, hl, by decide +kernel, by decide +kernel, by decide +kernel⟩

end LiveHighlight
