import LiveHighlight.Document.Buffer
import Mathlib.Data.List.Basic

/-!
# What edits leave alone

An edit of lines puts new lines in the place of some lines that are next to each other (`Buffer.Patched`). All other lines keep
their texts and their annotations, and they keep them together: it is whole lines that stay. Which lines an edit puts in which
place, when it is refused and what kind of change it is is said by `Buffer.Patches`, and that is all that there is to say, since
the lines after an edit are given by it.
-/

namespace LiveHighlight

namespace Buffer

/-- Lines with the given texts and without annotations take the place of some lines from a line on. The lines before and after
them stay as they are. -/
structure Patched (b b' : Buffer) (line taken : Nat) (given : List String) : Prop where
  fits : line + taken ≤ b.lineCount
  before : ∀ i < line, b'.lines[i]? = b.lines[i]?
  new : ∀ i < given.length, b'.lines[line + i]? = given[i]?.map Line.ofText
  after : ∀ i, b'.lines[line + given.length + i]? = b.lines[line + taken + i]?

/-- What an edit of lines answers. It is refused if a line is not there that it is addressed to, and it tells which line and how
many lines there are; otherwise it makes one change of a kind. -/
structure Patches (b : Buffer) (e : Edit) (line taken : Nat) (given : List String) (event : BufferEvent) : Prop where
  refused : ∀ error, b.edit e = .error error ↔ b.lineCount < line + taken ∧ error = .lineOutOfRange line b.lineCount
  accepted : ∀ b' told, b.edit e = .ok (b', told) ↔ b.Patched b' line taken given ∧ told = event

/-- An annotation is added to those of a line. All other lines stay as they are, and so does the text of that one. -/
structure Annotated (b b' : Buffer) (line : Nat) (a : Annotation) : Prop where
  fits : line < b.lineCount
  count : b'.lineCount = b.lineCount
  others : ∀ i ≠ line, b'.lines[i]? = b.lines[i]?
  added : ∀ l, b.lines[line]? = some l → b'.lines[line]? = some ⟨l.text, l.annotations ++ [a]⟩

variable {b b' b'' : Buffer} {line taken : Nat} {given : List String}

/-- Buffers are the same if they have the same lines. -/
theorem eq_of_getElem? (h : ∀ i : Nat, b.lines[i]? = b'.lines[i]?) : b = b' := by
  cases b
  cases b'
  exact congrArg Buffer.mk (List.ext_getElem? h)

/-- The lines of a patched buffer in one piece. -/
theorem Patched.of_append (fits : line + taken ≤ b.lineCount) :
    b.Patched ⟨b.lines.take line ++ given.map Line.ofText ++ b.lines.drop (line + taken)⟩ line taken given where
  fits := fits
  before i hi := by
    rw [List.append_assoc, List.getElem?_append_left (by rw [List.length_take]; unfold lineCount at fits; omega),
      List.getElem?_take_of_lt hi]
  new i hi := by
    have hlen : (b.lines.take line).length = line := by
      rw [List.length_take]
      unfold lineCount at fits
      omega
    rw [List.append_assoc, List.getElem?_append_right (by omega), hlen, Nat.add_sub_cancel_left,
      List.getElem?_append_left (by simpa using hi), List.getElem?_map]
  after i := by
    have hlen : (b.lines.take line ++ given.map Line.ofText).length = line + given.length := by
      rw [List.length_append, List.length_take, List.length_map]
      unfold lineCount at fits
      omega
    rw [List.getElem?_append_right (by omega), hlen, Nat.add_sub_cancel_left, List.getElem?_drop]

/-- A buffer is patched in one way only. -/
theorem Patched.unique (h : b.Patched b' line taken given) (h' : b.Patched b'' line taken given) : b' = b'' := by
  refine eq_of_getElem? fun i => ?_
  -- A line is before the place, in it or after it.
  rcases Nat.lt_or_ge i line with hi | hi
  · rw [h.before i hi, h'.before i hi]
  · obtain ⟨j, rfl⟩ := Nat.exists_eq_add_of_le hi
    rcases Nat.lt_or_ge j given.length with hj | hj
    · rw [h.new j hj, h'.new j hj]
    · obtain ⟨j, rfl⟩ := Nat.exists_eq_add_of_le hj
      rw [← Nat.add_assoc, h.after j, h'.after j]

/-- An edit that is given by when it fits and by the lines after it patches the buffer. -/
theorem Patches.of_eq {e : Edit} {event : BufferEvent}
    (h : b.edit e = if line + taken ≤ b.lineCount then
      .ok (⟨b.lines.take line ++ given.map Line.ofText ++ b.lines.drop (line + taken)⟩, event) else .error (b.outOfRange line)) :
    b.Patches e line taken given event := by
  by_cases fits : line + taken ≤ b.lineCount
  · rw [if_pos fits] at h
    refine ⟨fun error => ?_, fun b' told => ?_⟩
    · rw [h]
      exact ⟨nofun, fun he => absurd fits (by omega)⟩
    · rw [h]
      constructor
      · rintro ⟨⟩
        exact ⟨.of_append fits, rfl⟩
      · rintro ⟨hb, rfl⟩
        rw [hb.unique (.of_append fits)]
  · rw [if_neg fits] at h
    refine ⟨fun error => ?_, fun b' told => ?_⟩
    · rw [h]
      constructor
      · rintro ⟨⟩
        exact ⟨by omega, rfl⟩
      · rintro ⟨-, rfl⟩
        rfl
    · rw [h]
      exact ⟨nofun, fun hb => absurd hb.1.fits fits⟩

/-- Setting a line puts the lines of a text in its place. One line for one line is a change of a single line. -/
theorem patches_setLine (b : Buffer) (line : Nat) (text : String) :
    b.Patches (.setLine line text) line 1 (splitLines text)
      (if (splitLines text).length = 1 then .singleLine else .multiLine) :=
  .of_eq (by simp only [edit, linesOf, List.length_map, Nat.lt_iff_add_one_le])

/-- Inserting puts the lines of a text before a line and takes none away. -/
theorem patches_insertLine (b : Buffer) (line : Nat) (text : String) :
    b.Patches (.insertLine line text) line 0 (splitLines text) .multiLine :=
  .of_eq rfl

/-- Removing a line leaves the others, and an empty line if there is none. -/
theorem patches_removeLine (b : Buffer) (line : Nat) :
    b.Patches (.removeLine line) line 1 (if b.lineCount = 1 then [""] else []) .multiLine := by
  refine .of_eq ?_
  simp only [edit, Nat.lt_iff_add_one_le]
  split
  · next fits =>
    have hrest : b.lines.take line ++ b.lines.drop (line + 1) = [] ↔ b.lineCount = 1 := by
      rw [← List.length_eq_zero_iff, List.length_append, List.length_take, List.length_drop]
      unfold lineCount at fits ⊢
      omega
    by_cases hone : b.lineCount = 1
    · have hnil := hrest.2 hone
      obtain ⟨htake, hdrop⟩ := List.append_eq_nil_iff.1 hnil
      simp [hone, htake, hdrop]
    · simp [hone, mt hrest.1 hone]
  · rfl

theorem Annotated.of_modify {a : Annotation} (fits : line < b.lineCount) :
    b.Annotated ⟨b.lines.modify line fun l => { l with annotations := l.annotations ++ [a] }⟩ line a where
  fits := fits
  count := List.length_modify ..
  others i hi := by simp [Ne.symm hi]
  added l hl := by simp [hl]

/-- A line is annotated in one way only. -/
theorem Annotated.unique {a : Annotation} (h : b.Annotated b' line a) (h' : b.Annotated b'' line a) : b' = b'' := by
  refine eq_of_getElem? fun i => ?_
  by_cases hi : i = line
  · have hl := List.getElem?_eq_getElem (l := b.lines) h.fits
    rw [hi, h.added _ hl, h'.added _ hl]
  · rw [h.others i hi, h'.others i hi]

/-- Annotating is refused if the line is not there, and adds to what that line carries otherwise. -/
theorem annotate_iff (b : Buffer) (line : Nat) (a : Annotation) :
    (∀ error, b.annotate line a = .error error ↔ b.lineCount ≤ line ∧ error = .lineOutOfRange line b.lineCount) ∧
      ∀ b', b.annotate line a = .ok b' ↔ b.Annotated b' line a := by
  unfold annotate
  split
  · next fits =>
    refine ⟨fun error => ⟨nofun, fun h => absurd h.1 (Nat.not_le.2 fits)⟩, fun b' => ⟨?_, fun h => ?_⟩⟩
    · rintro ⟨⟩
      exact .of_modify fits
    · rw [h.unique (.of_modify fits)]
  · next hnot =>
    refine ⟨fun error => ⟨?_, ?_⟩, fun b' => ⟨nofun, fun h => absurd h.fits hnot⟩⟩
    · rintro ⟨⟩
      exact ⟨Nat.not_lt.1 hnot, rfl⟩
    · rintro ⟨-, rfl⟩
      rfl

end Buffer

end LiveHighlight
