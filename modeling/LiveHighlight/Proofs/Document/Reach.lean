import LiveHighlight.Proofs.Highlight.Progress
import LiveHighlight.Text.Cut

/-!
# Buffers that are reached

Buffers come from texts, and edits and annotations lead from one to the next (`Buffer.Reached`). Whatever is done to a buffer, it
has a line, and a line feed is never part of one (`Buffer.Reached.lined`). `Buffer.revise` tries edits one after the other, those
included that are refused; what every edit keeps it keeps (`Buffer.revise_induction`).
-/

namespace LiveHighlight

/-- The text that an edit puts in: the empty text where it takes a line out. -/
def Edit.text : Edit → String
  | .load text | .setText text | .setLine _ text | .insertLine _ text => text
  | .removeLine _ => ""

namespace Buffer

/-- The buffer after an edit was tried: one that is refused changes nothing. -/
def attempt (b : Buffer) (e : Edit) : Buffer :=
  match b.edit e with
  | .ok (edited, _) => edited
  | .error _ => b

/-- The buffer after some edits were tried one after the other. -/
def revise (b : Buffer) (edits : List Edit) : Buffer := edits.foldl attempt b

/-- The buffers that texts, edits and annotations come to. -/
inductive Reached : Buffer → Prop
  | ofText (text : String) : Reached (.ofText text)
  | edit {b b' : Buffer} {e : Edit} {event : BufferEvent} (before : Reached b) (edited : b.edit e = .ok (b', event)) : Reached b'
  | clear {b : Buffer} (before : Reached b) : Reached b.clear
  | annotate {b b' : Buffer} {line : Nat} {a : Annotation} (before : Reached b) (annotated : b.annotate line a = .ok b') :
    Reached b'

/-- Whether a buffer has lines, and none of them holds a line feed. -/
structure Lined (b : Buffer) : Prop where
  lines : b.lines ≠ []
  single : ∀ line ∈ b.lines, '\n' ∉ line.text.toList

variable {b b' : Buffer} {e : Edit} {event : BufferEvent}

theorem linesOf_ne_nil (text : String) : linesOf text ≠ [] := by
  simp [linesOf, splitLines, cutAt_ne_nil]

/-- The lines of a text hold no line feed. -/
theorem single_of_mem_linesOf {text : String} {line : Line} (h : line ∈ linesOf text) : '\n' ∉ line.text.toList := by
  simp only [linesOf, splitLines, List.map_map, List.mem_map] at h
  obtain ⟨piece, hpiece, rfl⟩ := h
  have hnot := not_mem_of_mem_cutAt hpiece
  simp only [Function.comp_apply, Line.ofText, String.toList_ofList, dropCarriageReturn]
  split
  · exact fun hmem => hnot (List.mem_of_mem_take (List.dropLast_eq_take ▸ hmem))
  · exact hnot

/-- An edit leaves lines. -/
theorem lines_ne_nil_of_edit (h : b.edit e = .ok (b', event)) : b'.lines ≠ [] := by
  cases e <;> simp only [edit] at h
  case load text | setText text =>
    obtain ⟨rfl, -⟩ := Prod.mk.inj (Except.ok.inj h)
    exact linesOf_ne_nil text
  case setLine line text | insertLine line text =>
    split at h
    · obtain ⟨rfl, -⟩ := Prod.mk.inj (Except.ok.inj h)
      simp [linesOf_ne_nil]
    · cases h
  case removeLine line =>
    split at h
    · obtain ⟨rfl, -⟩ := Prod.mk.inj (Except.ok.inj h)
      dsimp only
      split
      · simp
      · assumption
    · cases h

/-- The lines after an edit are lines from before or lines of the text that is put in. -/
theorem mem_of_edit (h : b.edit e = .ok (b', event)) {line : Line} (hline : line ∈ b'.lines) :
    line ∈ b.lines ∨ line ∈ linesOf e.text := by
  cases e <;> simp only [edit] at h
  case load text | setText text =>
    obtain ⟨rfl, -⟩ := Prod.mk.inj (Except.ok.inj h)
    exact .inr hline
  case setLine n text | insertLine n text =>
    split at h
    · obtain ⟨rfl, -⟩ := Prod.mk.inj (Except.ok.inj h)
      rcases List.mem_append.1 hline with hline | hline
      · rcases List.mem_append.1 hline with hline | hline
        · exact .inl (List.mem_of_mem_take hline)
        · exact .inr hline
      · exact .inl (List.mem_of_mem_drop hline)
    · cases h
  case removeLine n =>
    split at h
    · obtain ⟨rfl, -⟩ := Prod.mk.inj (Except.ok.inj h)
      dsimp only at hline
      split at hline
      · -- the line that takes the place of the last one is that of the empty text
        exact .inr hline
      · rcases List.mem_append.1 hline with hline | hline
        · exact .inl (List.mem_of_mem_take hline)
        · exact .inl (List.mem_of_mem_drop hline)
    · cases h

theorem Lined.edit (hb : b.Lined) (h : b.edit e = .ok (b', event)) : b'.Lined where
  lines := lines_ne_nil_of_edit h
  single line hline := by
    rcases mem_of_edit h hline with hold | hnew
    · exact hb.single line hold
    · exact single_of_mem_linesOf hnew

/-- Whether a buffer has lines without line feeds can be told from the texts of its lines. -/
theorem lined_iff : b.Lined ↔ b.texts ≠ [] ∧ ∀ text ∈ b.texts, '\n' ∉ text.toList := by
  constructor
  · rintro ⟨hlines, hsingle⟩
    simpa [texts] using ⟨hlines, hsingle⟩
  · rintro ⟨hne, hsingle⟩
    exact ⟨by simpa [texts] using hne, fun line hline => hsingle line.text (List.mem_map_of_mem hline)⟩

theorem Lined.texts_ne_nil (hb : b.Lined) : b.texts ≠ [] := (lined_iff.1 hb).1

theorem Lined.congr (hb : b.Lined) (h : b'.texts = b.texts) : b'.Lined := by
  rw [lined_iff, h]
  exact lined_iff.1 hb

theorem Lined.clear (hb : b.Lined) : b.clear.Lined := hb.congr b.texts_clear

theorem Lined.annotate (hb : b.Lined) {n : Nat} {a : Annotation} (h : b.annotate n a = .ok b') : b'.Lined :=
  hb.congr (texts_annotate h)

/-- What edits keep, tried edits keep. -/
theorem revise_induction {P : Buffer → Prop} {edits : List Edit} (hb : P b)
    (edit : ∀ {b b' : Buffer} {e : Edit} {event : BufferEvent}, e ∈ edits → P b → b.edit e = .ok (b', event) → P b') :
    P (b.revise edits) := by
  induction edits generalizing b with
  | nil => exact hb
  | cons e edits ih =>
    refine ih ?_ fun he => edit (.tail _ he)
    unfold attempt
    split
    · next hedit => exact edit (.head _) hb hedit
    · exact hb

/-- A text has lines without line feeds. -/
theorem lined_ofText (text : String) : (ofText text).Lined := ⟨linesOf_ne_nil text, fun _ h => single_of_mem_linesOf h⟩

theorem Lined.revise (hb : b.Lined) (edits : List Edit) : (b.revise edits).Lined :=
  revise_induction hb fun _ hb hedit => hb.edit hedit

/-- A buffer that is reached has lines without line feeds. -/
theorem Reached.lined (h : b.Reached) : b.Lined := by
  induction h with
  | ofText text => exact lined_ofText text
  | edit before edited ih => exact ih.edit edited
  | clear before ih => exact ih.clear
  | annotate before annotated ih => exact ih.annotate annotated

end Buffer

end LiveHighlight
