import LiveHighlight.Proofs.Highlight.Progress
import LiveHighlight.Proofs.Parse.Positions
import LiveHighlight.Proofs.Text.Addresses

/-!
# Parse jobs that read the text as it is

A job reads a text (`ParseJob.Reads`) when its snapshot is that text and its run is one of a parse of it. Every position of a
snapshot is on a line of it, so as long as the text stays what it was the sink has a line for every event and the parse does not
fault (`Reads.step`). The annotations of the lines make no difference.
-/

namespace LiveHighlight

/-- A position of some lines, or the one after the last, is on one of them. -/
theorem LineStream.exists_seekLine {lines : List String} (hne : lines ≠ []) {pos : Nat} (h : pos ≤ (ofLines lines).length) :
    ∃ place, (ofLines lines).seekLine pos = some place ∧ place.1 < lines.length := by
  obtain ⟨before, line, after, hon⟩ := exists_onLine hne h
  refine ⟨_, hon.seekLine_eq, ?_⟩
  rw [hon.split]
  simp

namespace Sink

variable {k : Sink} {texts : List String}

/-- A sink has a line for every event about a position of its snapshot. -/
theorem exists_mark (hk : k.snapshot = .ofLines texts) (hne : texts ≠ []) {event : Event}
    (h : event.position ≤ k.snapshot.stream.length) : ∃ line a, k.mark event = .ok (line, a) ∧ line < texts.length := by
  have hlocate : ∃ place, k.locate event.position = .ok place ∧ place.1 < texts.length := by
    obtain ⟨place, hplace, hlt⟩ := LineStream.exists_seekLine hne (hk ▸ h)
    exact ⟨place, by simp [locate, hk, hplace], hlt⟩
  cases event with
  | matched m =>
    obtain ⟨place, hplace, hlt⟩ := hlocate
    exact ⟨place.1, _, by rw [mark, show k.locate m.offset = .ok place from hplace]; rfl, hlt⟩
  | unmatched e position =>
    have herror : ∃ place, k.locateError position = .ok place ∧ place.1 < texts.length := by
      unfold locateError
      split
      · exact hlocate
      · -- past the end the mark is put on the last line
        refine ⟨_, rfl, ?_⟩
        have hpos := List.length_pos_iff.2 hne
        rw [hk, LineStream.lineCount_ofLines hne]
        omega
    obtain ⟨place, hplace, hlt⟩ := herror
    exact ⟨place.1, _, by rw [mark, hplace]; rfl, hlt⟩

/-- A buffer with the lines of the snapshot takes what a sink writes. -/
theorem exists_write (hk : k.snapshot = .ofLines texts) (hne : texts ≠ []) {b : Buffer} (hb : b.texts = texts) {event : Event}
    (h : event.position ≤ k.snapshot.stream.length) : ∃ b', k.write b event = .ok b' ∧ b'.texts = texts := by
  obtain ⟨line, a, hm, hlt⟩ := exists_mark hk hne h
  have hcount : line < b.lineCount := by
    rw [← hb] at hlt
    simpa [Buffer.texts, Buffer.lineCount] using hlt
  have hw : k.write b event = .ok ⟨b.lines.modify line fun l => { l with annotations := l.annotations ++ [a] }⟩ := by
    simp [write, hm, Buffer.annotate, hcount]
  exact ⟨_, hw, (texts_write hw).trans hb⟩

/-- A sink takes every event of a parse of its snapshot as long as the text is that of the snapshot. -/
theorem takes_listener (hk : k.snapshot = .ofLines texts) (hne : texts ≠ []) :
    k.listener.Takes k.snapshot.stream fun draft => draft.buffer.texts = texts ∧ draft.complaint = none := by
  rintro draft event ⟨hb, hc⟩ hpos
  obtain ⟨b', hw, hb'⟩ := exists_write hk hne hb hpos
  simp only [listener, hw]
  exact ⟨trivial, hb', hc⟩

end Sink

namespace ParseJob

/-- What the sink of a job hears in the next slice, and what it has written before. -/
def Hears (j : ParseJob) (b : Buffer) (draft : Sink.Draft) (event : Event) : Prop :=
  j.phase = .parse ∧ ∃ n < j.stepsPerSlice, ∃ run move,
    j.run.advance j.sink.listener j.sink.snapshot.stream n ⟨b, none⟩ = (run, draft) ∧ run.phase = .running ∧
      run.plan j.sink.snapshot.stream = .ok (some move) ∧ move.event = some event

/-- Whether the next step of a job on a buffer parses the lines that the buffer has, and succeeds. -/
structure Succeeds (j : ParseJob) (b : Buffer) : Prop where
  snapshot : j.sink.snapshot = b.snapshot
  /-- Every event is put on a line that there is. -/
  marks : ∀ draft event, j.Hears b draft event → ∃ line a, j.sink.mark event = .ok (line, a) ∧ line < draft.buffer.lineCount
  /-- The parse does not end in a fault. -/
  sound : (j.step false b).job.run.phase ≠ .failed
  silent : (j.step false b).complaint = none

/-- Whether a job parses a text: its snapshot is that text, and its run is how far a parse of it got. -/
structure Reads (g : Grammar) (o : ParseOptions) (texts : List String) (j : ParseJob) : Prop where
  sink : j.sink = .make (.ofLines texts) o.errorColor
  run : ∃ n, j.run = (Run.start g o.maxDepth).ahead (LineStream.ofLines texts).stream n

/-- A job that is made for a buffer reads its text. -/
theorem reads_start (g : Grammar) (b : Buffer) (o : ParseOptions) : (ParseJob.start g b o).Reads g o b.texts := ⟨rfl, 0, rfl⟩

namespace Reads

variable {g : Grammar} {o : ParseOptions} {texts : List String} {j : ParseJob} {b : Buffer}

/-- The steps of a parse on a buffer with the text that the job reads. -/
theorem advance (h : j.Reads g o texts) (hg : g.Closed) (hne : texts ≠ []) (hb : b.texts = texts) (n : Nat) :
    (∃ m, (j.run.advance j.sink.listener j.sink.snapshot.stream n ⟨b, none⟩).1 =
        (Run.start g o.maxDepth).ahead (LineStream.ofLines texts).stream m) ∧
      (j.run.advance j.sink.listener j.sink.snapshot.stream n ⟨b, none⟩).2.buffer.texts = texts ∧
      (j.run.advance j.sink.listener j.sink.snapshot.stream n ⟨b, none⟩).2.complaint = none := by
  obtain ⟨m, hrun⟩ := h.run
  have hstream : j.sink.snapshot = .ofLines texts := by
    rw [h.sink]
    rfl
  have hwithin : j.run.Within (LineStream.ofLines texts).stream := hrun ▸ (Run.within_start g _ _).ahead m
  have hplan (n : Nat) (fault : ParseFault) : (j.run.ahead (LineStream.ofLines texts).stream n).plan
      (LineStream.ofLines texts).stream ≠ .error fault := by
    rw [hrun, ← Run.ahead_add]
    exact Run.plan_ahead hg _ _ _ fault
  have htakes := Sink.takes_listener hstream hne
  rw [hstream] at htakes ⊢
  obtain ⟨hadvance, hdraft⟩ := hwithin.advance htakes ⟨b, none⟩ ⟨hb, rfl⟩ (n := n) hplan
  refine ⟨⟨m + n, ?_⟩, hdraft⟩
  rw [hadvance, hrun, Run.ahead_add]

/-- A step on a buffer with the text that a job reads leaves a job that reads it, and a run that has not failed. -/
theorem step (h : j.Reads g o texts) (hg : g.Closed) (hne : texts ≠ []) (hb : b.texts = texts) :
    (j.step false b).job.Reads g o texts := by
  obtain ⟨hrun, -⟩ := h.advance hg hne hb j.stepsPerSlice
  unfold ParseJob.step
  rw [if_neg (by simp)]
  split
  · exact ⟨h.sink, h.run⟩
  · exact ⟨h.sink, hrun⟩
  · exact ⟨h.sink, h.run⟩
  · exact h

theorem phase_ne_failed (h : j.Reads g o texts) (hg : g.Closed) : j.run.phase ≠ .failed := by
  obtain ⟨n, hrun⟩ := h.run
  rw [hrun]
  exact Run.phase_ahead (by simp [Run.start]) (fun m fault => Run.plan_ahead hg _ _ m fault) n

/-- A step on a buffer with the text that a job reads succeeds. -/
theorem succeeds (h : j.Reads g o texts) (hg : g.Closed) (hne : texts ≠ []) (hb : b.texts = texts) : j.Succeeds b where
  snapshot := by
    rw [h.sink, Buffer.snapshot, show b.lines.map (·.text) = texts from hb]
    rfl
  marks draft event hears := by
    obtain ⟨-, n, -, run, move, hadvance, -, hplan, he⟩ := hears
    obtain ⟨⟨m, hrun⟩, hdraft, -⟩ := h.advance hg hne hb n
    have hstream : j.sink.snapshot = .ofLines texts := by
      rw [h.sink]
      rfl
    rw [hadvance] at hrun hdraft
    rw [hstream] at hplan
    have hwithin : run.Within (LineStream.ofLines texts).stream := by
      rw [show run = _ from hrun]
      exact (Run.within_start g _ _).ahead m
    have hpos : event.position ≤ j.sink.snapshot.stream.length := by
      rw [hstream, (hwithin.plan hplan).2 event he]
      exact hwithin.position
    obtain ⟨line, a, hm, hlt⟩ := Sink.exists_mark hstream hne hpos
    refine ⟨line, a, hm, ?_⟩
    rw [← hdraft] at hlt
    simpa [Buffer.texts, Buffer.lineCount] using hlt
  sound := (h.step hg hne hb).phase_ne_failed hg
  silent := by
    obtain ⟨-, -, hc⟩ := h.advance hg hne hb j.stepsPerSlice
    unfold ParseJob.step
    rw [if_neg (by simp)]
    split
    · rfl
    · exact hc
    · rfl
    · rfl

end Reads

end ParseJob

end LiveHighlight
