import Mathlib.Data.Prod.Lex
import LiveHighlight.Proofs.Text.Addresses

/-!
# Places of positions

A line and a column are the place of a position (`LineStream.Addresses`) if the column is one of the line, its end included, and
the position is as many characters behind the line's start. Finding the place of a position and counting from a place are inverse
to each other (`seekLine_eq_some_iff`), every position up to the end of the text has a place, and places come in the order of their
positions (`LineStream.seekLine_inverts`).
-/

namespace LiveHighlight

namespace LineStream

/-- Whether a line and a column are the place of a position: the line has the column, or ends at it, and the position is the column
counted from the line's start. -/
def Addresses (s : LineStream) (place : Nat × Nat) (pos : Nat) : Prop :=
  ∃ start width, s.lineStart place.1 = some start ∧ s.lineLength place.1 = some width ∧ place.2 ≤ width ∧
    pos = start + place.2

/-- A line that starts somewhere is one of the lines. -/
theorem lt_lineCount {s : LineStream} {line start : Nat} (h : s.lineStart line = some start) : line < s.lineCount := by
  obtain ⟨hlt, -⟩ := Array.getElem?_eq_some_iff.1 h
  exact hlt

/-- The snapshot of no lines is that of one empty line. -/
theorem exists_ofLines (lines : List String) : ∃ full, full ≠ [] ∧ ofLines lines = ofLines full := by
  cases lines with
  | nil => exact ⟨[""], List.cons_ne_nil _ _, rfl⟩
  | cons line lines => exact ⟨line :: lines, List.cons_ne_nil _ _, rfl⟩

section

variable {lines : List String} {pos pos' : Nat} {place place' : Nat × Nat}

/-- Each of the lines has others before it and others after it. -/
theorem exists_split (hne : lines ≠ []) {line : Nat} (h : line < (ofLines lines).lineCount) :
    ∃ before text after, lines = before ++ text :: after ∧ before.length = line := by
  rw [lineCount_ofLines hne] at h
  refine ⟨lines.take line, lines[line], lines.drop (line + 1), ?_, List.length_take_of_le (Nat.le_of_lt h)⟩
  rw [← List.drop_eq_getElem_cons h, List.take_append_drop]

/-- The place of a position is on the line that the position is on. -/
theorem addresses_iff (hne : lines ≠ []) : (ofLines lines).Addresses place pos ↔
    ∃ before line after, OnLine lines pos before line after ∧ place = (before.length, pos - width before) := by
  constructor
  · rintro ⟨start, length, hstart, hlength, hle, rfl⟩
    obtain ⟨before, line, after, hsplit, hbefore⟩ := exists_split hne (lt_lineCount hstart)
    have hon := OnLine.of_split hsplit
    rw [← hbefore] at hstart hlength
    obtain rfl : width before = start := Option.some.inj (hon.lineStart_eq.symm.trans hstart)
    obtain rfl : line.length = length := Option.some.inj (hon.lineLength_eq.symm.trans hlength)
    refine ⟨before, line, after, ⟨hsplit, Nat.le_add_right _ _, Nat.add_le_add_left hle _⟩, ?_⟩
    rw [Nat.add_sub_cancel_left, hbefore]
  · rintro ⟨before, line, after, hon, rfl⟩
    exact ⟨width before, line.length, hon.lineStart_eq, hon.lineLength_eq, Nat.sub_le_of_le_add (Nat.add_comm _ _ ▸ hon.le_stop),
      (Nat.add_sub_of_le hon.start_le).symm⟩

/-- The place that is found is the place of the position, and the place of a position is found. -/
theorem seekLine_eq_some_iff (lines : List String) :
    (ofLines lines).seekLine pos = some place ↔ (ofLines lines).Addresses place pos := by
  obtain ⟨lines', hne, hlines⟩ := exists_ofLines lines
  rw [hlines, addresses_iff hne]
  constructor
  · intro h
    have hin : pos ≤ (ofLines lines').length := by
      by_contra hout
      rw [seekLine, if_pos (Nat.lt_of_not_le hout)] at h
      cases h
    obtain ⟨before, line, after, hon⟩ := exists_onLine hne hin
    exact ⟨before, line, after, hon, Option.some.inj (h.symm.trans hon.seekLine_eq)⟩
  · rintro ⟨before, line, after, hon, rfl⟩
    exact hon.seekLine_eq

/-- A position has no place if and only if it is behind the end. -/
theorem seekLine_eq_none_iff (lines : List String) : (ofLines lines).seekLine pos = none ↔ (ofLines lines).length < pos := by
  simp [seekLine]

/-- Later positions have later places. -/
theorem lex_of_lt (h : (ofLines lines).seekLine pos = some place) (h' : (ofLines lines).seekLine pos' = some place')
    (hlt : pos < pos') : toLex place < toLex place' := by
  rw [Prod.Lex.toLex_lt_toLex]
  rcases Nat.lt_or_eq_of_le (seekLine_mono (Nat.le_of_lt hlt) h h') with hline | hline
  · exact .inl hline
  · -- on one line the columns are counted from the same start
    obtain ⟨start, -, hstart, -, -, rfl⟩ := (seekLine_eq_some_iff lines).1 h
    obtain ⟨start', -, hstart', -, -, rfl⟩ := (seekLine_eq_some_iff lines).1 h'
    obtain rfl : start = start' := Option.some.inj (hstart.symm.trans (hline ▸ hstart'))
    exact .inr ⟨hline, Nat.lt_of_add_lt_add_left hlt⟩

end

/-- In the snapshot of any lines, every position up to the end has one place, which is found, on a line that there is. Counting a
column from the start of a line, up to the line's end, and finding the place gives that line and column. Only positions behind the
end have no place, and the order of positions is that of their places, by line and then by column. -/
theorem seekLine_inverts (lines : List String) :
    (∀ pos ≤ (ofLines lines).length, ∃ place, (ofLines lines).seekLine pos = some place ∧
      place.1 < (ofLines lines).lineCount ∧ (ofLines lines).Addresses place pos ∧
      ∀ other, (ofLines lines).Addresses other pos → other = place) ∧
    (∀ line < (ofLines lines).lineCount, ∃ start width, (ofLines lines).lineStart line = some start ∧
      (ofLines lines).lineLength line = some width ∧
      ∀ column ≤ width, (ofLines lines).seekLine (start + column) = some (line, column)) ∧
    (∀ pos, (ofLines lines).seekLine pos = none ↔ (ofLines lines).length < pos) ∧
    ∀ pos pos' place place', (ofLines lines).seekLine pos = some place → (ofLines lines).seekLine pos' = some place' →
      (pos < pos' ↔ toLex place < toLex place') := by
  refine ⟨?_, ?_, fun pos => seekLine_eq_none_iff lines, ?_⟩
  · intro pos hpos
    obtain ⟨place, hplace⟩ : ∃ place, (ofLines lines).seekLine pos = some place := by
      refine Option.ne_none_iff_exists'.1 fun hnone => ?_
      exact Nat.not_lt.2 hpos ((seekLine_eq_none_iff lines).1 hnone)
    have haddresses := (seekLine_eq_some_iff lines).1 hplace
    refine ⟨place, hplace, ?_, haddresses, ?_⟩
    · obtain ⟨start, -, hstart, -⟩ := haddresses
      exact lt_lineCount hstart
    · intro other hother
      exact Option.some.inj (((seekLine_eq_some_iff lines).2 hother).symm.trans hplace)
  · intro line hline
    obtain ⟨lines', hne, hlines⟩ := exists_ofLines lines
    rw [hlines] at hline
    obtain ⟨before, text, after, hsplit, rfl⟩ := exists_split hne hline
    have hstart := (OnLine.of_split hsplit).lineStart_eq
    have hlength := (OnLine.of_split hsplit).lineLength_eq
    rw [← hlines] at hstart hlength
    refine ⟨width before, text.length, hstart, hlength, ?_⟩
    intro column hcolumn
    exact (seekLine_eq_some_iff lines).2 ⟨_, _, hstart, hlength, hcolumn, rfl⟩
  · intro pos pos' place place' h h'
    refine ⟨lex_of_lt h h', fun hlex => ?_⟩
    rcases Nat.lt_trichotomy pos pos' with hlt | rfl | hgt
    · exact hlt
    · obtain rfl : place = place' := Option.some.inj (h.symm.trans h')
      exact absurd hlex (lt_irrefl _)
    · exact absurd hlex (lt_asymm (lex_of_lt h' h hgt))

end LineStream

end LiveHighlight
