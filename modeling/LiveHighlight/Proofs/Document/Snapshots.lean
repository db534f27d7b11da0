import LiveHighlight.Proofs.Document.Reach
import LiveHighlight.Proofs.Highlight.Progress
import LiveHighlight.Proofs.Text.Addresses

/-!
# Snapshots show the text

A snapshot finds the lines in the joined text on its own. For a buffer that has lines and no line feed in any of them, what it finds
are the lines of the buffer (`Buffer.Lined.mirrored`).
-/

namespace LiveHighlight

namespace Buffer

/-- Whether a buffer has lines without line feeds, and its snapshot shows its text and finds the lines where they stand in it. -/
structure Mirrored (b : Buffer) : Prop extends Lined b where
  length : b.snapshot.length = b.text.length
  chars : ∀ pos, b.snapshot.stream.charAt pos = b.text.toList[pos]?
  count : b.snapshot.lineCount = b.lineCount
  /-- A line starts after the lines before it and their separators, and it is as long as it is. -/
  line : ∀ n line, b.lines[n]? = some line → ∃ before after : List Char,
    b.text.toList = before ++ line.text.toList ++ after ∧
    before = (b.lines.take n).flatMap (fun l => l.text.toList ++ ['\n']) ∧
    after = (b.lines.drop (n + 1)).flatMap (fun l => '\n' :: l.text.toList) ∧
    b.snapshot.lineStart n = some before.length ∧ b.snapshot.lineLength n = some line.text.length
  /-- The place of a position is on a line of the buffer, or at its end. -/
  seek : ∀ pos ≤ b.snapshot.length, ∃ n column line, b.snapshot.seekLine pos = some (n, column) ∧ b.lines[n]? = some line ∧
    column ≤ line.text.length ∧ (b.snapshot.lineStart n).map (· + column) = some pos
  outside : ∀ pos, b.snapshot.length < pos → b.snapshot.seekLine pos = none

namespace SnapshotAux

open LineStream

variable {b : Buffer}

theorem width_texts (lines : List Line) :
    width (lines.map (·.text)) = (lines.flatMap fun l => l.text.toList ++ ['\n']).length := by
  rw [← AddressAux.length_before, List.flatMap_map]

/-- Where a line of a buffer stands among its texts. -/
theorem split_texts {n : Nat} {line : Line} (h : b.lines[n]? = some line) :
    b.texts = (b.lines.take n).map (·.text) ++ line.text :: (b.lines.drop (n + 1)).map (·.text) ∧
      ((b.lines.take n).map (·.text)).length = n := by
  obtain ⟨hn, rfl⟩ := List.getElem?_eq_some_iff.1 h
  constructor
  · rw [texts, ← List.map_cons, ← List.map_append, List.getElem_cons_drop, List.take_append_drop]
  · rw [List.length_map, List.length_take]
    omega

/-- Lines are found where they stand. -/
theorem line_of_getElem? {n : Nat} {line : Line} (h : b.lines[n]? = some line) :
    b.text.toList = (b.lines.take n).flatMap (fun l => l.text.toList ++ ['\n']) ++ line.text.toList ++
        (b.lines.drop (n + 1)).flatMap (fun l => '\n' :: l.text.toList) ∧
      b.snapshot.lineStart n = some ((b.lines.take n).flatMap fun l => l.text.toList ++ ['\n']).length ∧
      b.snapshot.lineLength n = some line.text.length := by
  obtain ⟨hsplit, hlength⟩ := split_texts h
  have hon := OnLine.of_split hsplit
  have hstart := hon.lineStart_eq
  have hlen := hon.lineLength_eq
  rw [hlength] at hstart hlen
  refine ⟨?_, ?_, hlen⟩
  · rw [text, show b.lines.map (·.text) = b.texts from rfl, hsplit, AddressAux.toList_joinLines, List.flatMap_map, List.flatMap_map,
      List.append_assoc]
  · rw [← width_texts]
    exact hstart

/-- Every position is on a line of the buffer, or at its end. -/
theorem exists_line (hb : b.texts ≠ []) {pos : Nat} (h : pos ≤ b.snapshot.length) :
    ∃ n column line, b.snapshot.seekLine pos = some (n, column) ∧ b.lines[n]? = some line ∧ column ≤ line.text.length ∧
      (b.snapshot.lineStart n).map (· + column) = some pos := by
  obtain ⟨before, found, after, hon⟩ := exists_onLine hb h
  have hfound : b.texts[before.length]? = some found := by simp [hon.split]
  rw [texts, List.getElem?_map] at hfound
  obtain ⟨line, hline, rfl⟩ := Option.map_eq_some_iff.1 hfound
  have hstart := hon.start_le
  have hstop := hon.le_stop
  refine ⟨before.length, pos - width before, line, hon.seekLine_eq, hline, by omega, ?_⟩
  rw [show b.snapshot.lineStart before.length = some (width before) from hon.lineStart_eq, Option.map_some, Nat.add_sub_cancel' hstart]

end SnapshotAux

open SnapshotAux

/-- The snapshot of a buffer with lines shows its text and finds its lines. -/
theorem Lined.mirrored {b : Buffer} (hb : b.Lined) : b.Mirrored where
  toLined := hb
  length := String.length_toList
  chars := Stream.charAt_eq_getElem? _
  count := (LineStream.lineCount_ofLines hb.texts_ne_nil).trans (List.length_map _)
  line _ _ h := ⟨_, _, (line_of_getElem? h).1, rfl, rfl, (line_of_getElem? h).2⟩
  seek _ h := exists_line hb.texts_ne_nil h
  outside _ h := if_pos h

end Buffer

end LiveHighlight
