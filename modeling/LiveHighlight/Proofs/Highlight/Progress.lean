import Mathlib.Tactic.ByContra
import LiveHighlight.Highlight.Job
import LiveHighlight.Proofs.Parse.Steps

/-!
# The progress of a parse job

`Buffer.highlighted` is what one uninterrupted parse makes of the text of a buffer, onto no annotations. A job is in step with a
buffer (`ParseJob.InStep`) when its work on the buffer so far is the beginning of that parse. A step of the job keeps it in step
(`ParseJob.InStep.step`) whatever the size of its slices, and once the job is over the buffer is highlighted.
-/

namespace LiveHighlight

namespace Buffer

/-- The texts of the lines. -/
def texts (b : Buffer) : List String := b.lines.map (·.text)

/-- What one uninterrupted parse of the text makes of the buffer without annotations. -/
def highlighted (g : Grammar) (o : ParseOptions) (b : Buffer) : Buffer :=
  ((Run.start g o.maxDepth).toEnd (Sink.make b.snapshot o.errorColor).listener b.snapshot.stream ⟨b.clear, none⟩).2.buffer

/-- The buffer without annotations is made from the texts alone. -/
theorem clear_eq (b : Buffer) : b.clear = ⟨b.texts.map Line.ofText⟩ := by
  simp only [clear, texts, List.map_map]
  rfl

theorem texts_clear (b : Buffer) : b.clear.texts = b.texts := by
  rw [clear_eq]
  simp only [texts, List.map_map]
  exact List.map_congr_left fun _ _ => rfl

/-- Clearing a buffer twice clears it once. -/
theorem clear_clear (b : Buffer) : b.clear.clear = b.clear := by
  rw [clear_eq b.clear, texts_clear, ← clear_eq]

theorem snapshot_congr {b b' : Buffer} (h : b'.texts = b.texts) : b'.snapshot = b.snapshot := by
  unfold snapshot
  rw [show b'.lines.map (·.text) = b.lines.map (·.text) from h]

theorem clear_congr {b b' : Buffer} (h : b'.texts = b.texts) : b'.clear = b.clear := by
  rw [clear_eq, clear_eq, h]

/-- The uninterrupted parse depends on the texts alone. -/
theorem highlighted_congr {b b' : Buffer} (h : b'.texts = b.texts) (g : Grammar) (o : ParseOptions) :
    b'.highlighted g o = b.highlighted g o := by
  unfold highlighted
  rw [snapshot_congr h, clear_congr h]

/-- An annotation leaves the texts as they are. -/
theorem texts_annotate {b b' : Buffer} {line : Nat} {a : Annotation} (h : b.annotate line a = .ok b') : b'.texts = b.texts := by
  unfold annotate at h
  split at h
  · obtain rfl := Except.ok.inj h
    apply List.ext_getElem?
    intro i
    by_cases hi : line = i
    · subst hi
      cases hl : b.lines[line]? <;> simp [texts, hl]
    · simp [texts, hi]
  · cases h

end Buffer

namespace Sink

/-- What a sink writes leaves the texts as they are. -/
theorem texts_write {k : Sink} {b b' : Buffer} {e : Event} (h : k.write b e = .ok b') : b'.texts = b.texts := by
  unfold write at h
  split at h
  · cases h
  · split at h
    · cases h
    · rename_i ha
      obtain rfl := Except.ok.inj h
      exact Buffer.texts_annotate ha

/-- A sink that listens leaves the texts as they are, and complains only when a fault ends the parse. -/
theorem hear_listener (k : Sink) (draft : Draft) (e : Event) :
    (k.listener.hear draft e).1.buffer.texts = draft.buffer.texts ∧
      (k.listener.hear draft e).1.complaint = draft.complaint := by
  simp only [listener]
  split
  · rename_i b hb
    exact ⟨texts_write hb, rfl⟩
  · exact ⟨rfl, rfl⟩

/-- A step of a parse that a sink listens to leaves the texts as they are, and there is no complaint while the parse goes on. -/
theorem step_listener (k : Sink) (s : Stream) (r : Run) (draft : Draft) :
    (r.step k.listener s draft).2.buffer.texts = draft.buffer.texts ∧
      ((r.step k.listener s draft).1.phase = .running → (r.step k.listener s draft).2.complaint = draft.complaint) := by
  have h := Run.stepped (l := k.listener) (s := s) r draft
  generalize r.step k.listener s draft = x at h ⊢
  cases h with
  | ended | silent => exact ⟨rfl, fun _ => rfl⟩
  | faulty | finished => exact ⟨rfl, nofun⟩
  | @heard _ event _ _ _ _ hears =>
    have hh := hear_listener k draft event
    rw [hears] at hh
    exact ⟨hh.1, fun _ => hh.2⟩
  | @declined _ event _ _ _ _ _ hears =>
    have hh := hear_listener k draft event
    rw [hears] at hh
    exact ⟨hh.1, nofun⟩

/-- The same for a slice of a parse. -/
theorem advance_listener (k : Sink) (s : Stream) (n : Nat) (r : Run) (draft : Draft) :
    (r.advance k.listener s n draft).2.buffer.texts = draft.buffer.texts ∧
      ((r.advance k.listener s n draft).1.phase = .running →
        (r.advance k.listener s n draft).2.complaint = draft.complaint) := by
  induction n generalizing r draft with
  | zero => exact ⟨rfl, fun _ => rfl⟩
  | succ n ih =>
    rw [Run.advance_succ]
    have hs := step_listener k s r draft
    have hi := ih (r.step k.listener s draft).1 (r.step k.listener s draft).2
    refine ⟨hi.1.trans hs.1, ?_⟩
    intro hrun
    rw [hi.2 hrun]
    apply hs.2
    -- a parse that goes on after the slice went on after its first step
    by_contra hend
    rw [Run.advance_of_ended hend] at hrun
    exact hend hrun

end Sink

namespace ParseJob

/-- Whether a job's work on a buffer so far is the beginning of the uninterrupted parse of its text. -/
structure InStep (g : Grammar) (o : ParseOptions) (b : Buffer) (j : ParseJob) : Prop where
  sink : j.sink = .make b.snapshot o.errorColor
  /-- Nothing is parsed before the annotations are cleared. -/
  clear : j.phase = .clear → j.run = .start g o.maxDepth
  parse : j.phase = .parse → j.run.phase = .running ∧
    Run.Leads (Sink.make b.snapshot o.errorColor).listener b.snapshot.stream (.start g o.maxDepth, ⟨b.clear, none⟩)
      (j.run, ⟨b, none⟩)
  ended : j.phase = .announce ∨ j.phase = .done → b = b.highlighted g o

/-- A job that is made for a buffer is in step with it. -/
theorem inStep_start (g : Grammar) (b : Buffer) (o : ParseOptions) : (ParseJob.start g b o).InStep g o b where
  sink := rfl
  clear _ := rfl
  parse h := by cases h
  ended h := by rcases h with h | h <;> cases h

namespace InStep

variable {g : Grammar} {o : ParseOptions} {b : Buffer} {j : ParseJob}

/-- The first step of a job clears the annotations, and nothing is parsed yet. -/
theorem step_clear (h : j.InStep g o b) (hp : j.phase = .clear) :
    (j.step false b).job.InStep g o (j.step false b).buffer := by
  have hstep : j.step false b = ⟨{ j with phase := .parse }, b.clear, none, false, .again j.interval⟩ := by
    simp [ParseJob.step, hp]
  rw [hstep]
  refine ⟨?_, nofun, ?_, nofun⟩
  · rw [Buffer.snapshot_congr b.texts_clear]
    exact h.sink
  · intro _
    rw [Buffer.snapshot_congr b.texts_clear, b.clear_clear]
    refine ⟨?_, ?_⟩
    · rw [show ({ j with phase := .parse } : ParseJob).run = j.run from rfl, h.clear hp]
      rfl
    · rw [show ({ j with phase := .parse } : ParseJob).run = j.run from rfl, h.clear hp]
      exact Run.Leads.refl _

/-- A slice goes on with the parse. -/
theorem step_parse (h : j.InStep g o b) (hp : j.phase = .parse) :
    (j.step false b).job.InStep g o (j.step false b).buffer := by
  obtain ⟨hrun, hleads⟩ := h.parse hp
  have htexts := (j.sink.advance_listener j.sink.snapshot.stream j.stepsPerSlice j.run ⟨b, none⟩).1
  have hsilent := (j.sink.advance_listener j.sink.snapshot.stream j.stepsPerSlice j.run ⟨b, none⟩).2
  have hslice : Run.Leads (Sink.make b.snapshot o.errorColor).listener b.snapshot.stream (j.run, ⟨b, none⟩) (j.slice b) := by
    refine ⟨j.stepsPerSlice, ?_⟩
    rw [ParseJob.slice, h.sink]
    rfl
  have hstep : j.step false b = ⟨{ j with
      run := (j.slice b).1, phase := if (j.slice b).1.phase = .running then .parse else .announce }, (j.slice b).2.buffer,
      (j.slice b).2.complaint, false, .again j.interval⟩ := by
    simp [ParseJob.step, hp]
  have htexts' : (j.slice b).2.buffer.texts = b.texts := htexts
  rw [hstep]
  by_cases hr : (j.slice b).1.phase = .running
  · refine ⟨?_, ?_, ?_, ?_⟩
    · rw [Buffer.snapshot_congr htexts']
      exact h.sink
    · simp [hr]
    · intro _
      refine ⟨hr, ?_⟩
      rw [Buffer.snapshot_congr htexts', Buffer.clear_congr htexts']
      have hdraft : ((j.slice b).1, (⟨(j.slice b).2.buffer, none⟩ : Sink.Draft)) = j.slice b := by
        rw [← show (j.slice b).2.complaint = none from hsilent hr]
      rw [hdraft]
      exact hleads.trans hslice
    · simp [hr]
  · refine ⟨?_, ?_, ?_, ?_⟩
    · rw [Buffer.snapshot_congr htexts']
      exact h.sink
    · simp [hr]
    · simp [hr]
    · intro _
      rw [Buffer.highlighted_congr htexts', Buffer.highlighted, (hleads.trans hslice).toEnd hr]

/-- A step of a job keeps it in step. -/
theorem step (h : j.InStep g o b) : (j.step false b).job.InStep g o (j.step false b).buffer := by
  cases hp : j.phase with
  | clear => exact h.step_clear hp
  | parse => exact h.step_parse hp
  | announce =>
    have hstep : j.step false b = ⟨{ j with phase := .done }, b, none, true, .finished⟩ := by simp [ParseJob.step, hp]
    rw [hstep]
    exact ⟨h.sink, nofun, nofun, fun _ => h.ended (.inl hp)⟩
  | done =>
    have hstep : j.step false b = ⟨j, b, none, false, .finished⟩ := by simp [ParseJob.step, hp]
    rw [hstep]
    exact h

end InStep

/-- A job that is not cancelled finishes only when it is over. -/
theorem done_of_finished {j : ParseJob} {b : Buffer} (h : (j.step false b).next = .finished) :
    (j.step false b).job.phase = .done := by
  cases hp : j.phase <;> simp_all [ParseJob.step]

/-- A step of any job on any buffer leaves the texts as they are. -/
theorem texts_step (j : ParseJob) (c : Bool) (b : Buffer) : (j.step c b).buffer.texts = b.texts := by
  unfold step
  split
  · rfl
  · split
    · exact b.texts_clear
    · exact (j.sink.advance_listener j.sink.snapshot.stream j.stepsPerSlice j.run ⟨b, none⟩).1
    · rfl
    · rfl

/-- A step leaves a job its sink. -/
theorem sink_step (j : ParseJob) (c : Bool) (b : Buffer) : (j.step c b).job.sink = j.sink := by
  unfold step
  split
  · rfl
  · split <;> rfl

/-- A job that is not cancelled goes on in silence, or announces that the annotations are renewed and is over. -/
theorem step_cases {j : ParseJob} (h : j.phase ≠ .done) (b : Buffer) :
    ((j.step false b).announces = false ∧ (j.step false b).job.phase ≠ .done ∧ ∃ delay, (j.step false b).next = .again delay) ∨
      (j.step false b).announces = true ∧ (j.step false b).next = .finished ∧ (j.step false b).buffer = b := by
  unfold step
  rw [if_neg (by simp)]
  cases hp : j.phase with
  | clear => exact .inl ⟨rfl, nofun, _, rfl⟩
  | parse =>
    refine .inl ⟨rfl, ?_, _, rfl⟩
    dsimp only
    split <;> simp
  | announce => exact .inr ⟨rfl, rfl, rfl⟩
  | done => exact absurd hp h

end ParseJob

end LiveHighlight
