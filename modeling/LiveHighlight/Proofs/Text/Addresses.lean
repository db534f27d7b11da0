import Mathlib.Tactic.ByContra
import LiveHighlight.Text.Lines

/-!
# Positions and lines

A position of some lines joined together is on one of them (`exists_onLine`): `OnLine` says which lines come before it and which
after it. Then `seekLine` finds the line and the column (`OnLine.seekLine_eq`), later positions are on later lines
(`seekLine_mono`), and a stretch of text stays on the line on which it begins as long as it holds no separator
(`OnLine.le_iff_no_separator`).
-/

namespace LiveHighlight

namespace LineStream

/-- The number of characters of lines that have a separator after each of them. -/
def width : List String → Nat
  | [] => 0
  | line :: lines => line.length + 1 + width lines

/-- Whether a position of some lines is on a line, or at the end of it, that has some lines before it and some after it. -/
structure OnLine (lines : List String) (pos : Nat) (before : List String) (line : String) (after : List String) : Prop where
  split : lines = before ++ line :: after
  start_le : width before ≤ pos
  le_stop : pos ≤ width before + line.length

namespace AddressAux

theorem startsFrom_append (pos : Nat) (before after : List String) :
    startsFrom pos (before ++ after) = startsFrom pos before ++ startsFrom (pos + width before) after := by
  induction before generalizing pos with
  | nil => rfl
  | cons line before ih =>
    rw [List.cons_append, startsFrom, startsFrom, ih, width, List.cons_append]
    congr 3
    omega

theorem length_startsFrom (pos : Nat) (lines : List String) : (startsFrom pos lines).length = lines.length := by
  induction lines generalizing pos with
  | nil => rfl
  | cons line lines ih => simp [startsFrom, ih]

theorem width_append (before after : List String) : width (before ++ after) = width before + width after := by
  induction before with
  | nil => rw [List.nil_append, width, Nat.zero_add]
  | cons line before ih =>
    rw [List.cons_append, width, width, ih]
    omega

/-- No line starts before the first. -/
theorem le_of_mem_startsFrom {pos start : Nat} {lines : List String} (h : start ∈ startsFrom pos lines) : pos ≤ start := by
  induction lines generalizing pos with
  | nil => cases h
  | cons line lines ih =>
    rcases List.mem_cons.1 h with rfl | h
    · exact Nat.le_refl _
    · have hle := ih h
      omega

/-- Lines start before the end of the last of them. -/
theorem lt_of_mem_startsFrom {pos start : Nat} {lines : List String} (h : start ∈ startsFrom pos lines) :
    start < pos + width lines := by
  induction lines generalizing pos with
  | nil => cases h
  | cons line lines ih =>
    rw [width]
    rcases List.mem_cons.1 h with rfl | h
    · omega
    · have hlt := ih h
      omega

/-- The characters of joined lines, line by line. -/
theorem toList_joinLines (before : List String) (line : String) (after : List String) :
    (joinLines (before ++ line :: after)).toList =
      before.flatMap (fun l => l.toList ++ ['\n']) ++ (line.toList ++ after.flatMap fun l => '\n' :: l.toList) := by
  have hafter (line : String) : (joinLines (line :: after)).toList = line.toList ++ after.flatMap fun l => '\n' :: l.toList := by
    induction after generalizing line with
    | nil => simp [joinLines]
    | cons next after ih =>
      have hrest := ih next
      simp only [joinLines] at hrest ⊢
      rw [String.intercalate_cons_cons, String.toList_append, hrest]
      simp
  induction before with
  | nil => simpa using hafter line
  | cons first before ih =>
    have hne : before ++ line :: after ≠ [] := by simp
    simp only [joinLines] at ih ⊢
    rw [List.cons_append, String.intercalate_cons_of_ne_nil hne, String.toList_append, ih]
    simp

theorem length_before (before : List String) : (before.flatMap fun l => l.toList ++ ['\n']).length = width before := by
  induction before with
  | nil => rfl
  | cons line before ih =>
    rw [List.flatMap_cons, List.length_append, ih, width, List.length_append, String.length_toList]
    rfl

/-- Joined lines are as long as the lines before a line, the line, and what comes after it. -/
theorem length_ofLines (before : List String) (line : String) (after : List String) :
    (ofLines (before ++ line :: after)).length =
      width before + (line.length + (after.flatMap fun l => '\n' :: l.toList).length) := by
  have h : (ofLines (before ++ line :: after)).length = (joinLines (before ++ line :: after)).toList.length := by
    simp [length, ofLines, Stream.ofString, Stream.length]
  rw [h, toList_joinLines, List.length_append, length_before, List.length_append, String.length_toList]

theorem length_takeWhile_mono {p q : Nat → Bool} (h : ∀ n, p n = true → q n = true) (l : List Nat) :
    (l.takeWhile p).length ≤ (l.takeWhile q).length := by
  induction l with
  | nil => simp
  | cons n l ih =>
    by_cases hp : p n = true
    · rw [List.takeWhile_cons_of_pos hp, List.takeWhile_cons_of_pos (h n hp)]
      simpa using ih
    · simp [List.takeWhile_cons_of_neg hp]

end AddressAux

open AddressAux

theorem lineCount_ofLines {lines : List String} (hne : lines ≠ []) : (ofLines lines).lineCount = lines.length := by
  simp [lineCount, ofLines, hne, length_startsFrom]

/-- A position of joined lines, or the one after the last, is on one of them. -/
theorem exists_onLine {lines : List String} (hne : lines ≠ []) {pos : Nat} (h : pos ≤ (ofLines lines).length) :
    ∃ before line after, OnLine lines pos before line after := by
  induction lines generalizing pos with
  | nil => exact absurd rfl hne
  | cons line lines ih =>
    by_cases hin : pos ≤ line.length
    · exact ⟨[], line, lines, rfl, Nat.zero_le _, by simpa [width] using hin⟩
    · cases lines with
      | nil =>
        have hlen := length_ofLines [] line []
        simp only [List.nil_append, width, List.flatMap_nil, List.length_nil] at hlen
        omega
      | cons next rest =>
        have hlen := length_ofLines [line] next rest
        have hlen' := length_ofLines [] next rest
        simp only [List.cons_append, List.nil_append, width] at hlen hlen'
        have hrest : pos - (line.length + 1) ≤ (ofLines (next :: rest)).length := by omega
        obtain ⟨before, found, after, hsplit, hstart, hstop⟩ := ih (List.cons_ne_nil _ _) hrest
        refine ⟨line :: before, found, after, by rw [hsplit]; rfl, ?_, ?_⟩
        · rw [width]
          omega
        · rw [width]
          omega

namespace OnLine

variable {lines before after : List String} {line : String} {pos : Nat}

theorem starts_eq (h : OnLine lines pos before line after) :
    (ofLines lines).starts.toList =
      startsFrom 0 before ++ width before :: startsFrom (width before + (line.length + 1)) after := by
  have hne : lines.isEmpty = false := by simp [h.split]
  simp only [ofLines, hne, Bool.false_eq_true, if_false]
  rw [h.split, startsFrom_append, Nat.zero_add]
  rfl

/-- Where the line starts that a position is on. -/
theorem lineStart_eq (h : OnLine lines pos before line after) :
    (ofLines lines).lineStart before.length = some (width before) := by
  rw [lineStart, ← Array.getElem?_toList, h.starts_eq, List.getElem?_append_right (Nat.le_of_eq (length_startsFrom 0 before)),
    length_startsFrom, Nat.sub_self]
  rfl

/-- Every line is the one that the position of its beginning is on. -/
theorem of_split (h : lines = before ++ line :: after) : OnLine lines (width before) before line after :=
  ⟨h, Nat.le_refl _, Nat.le_add_right _ _⟩

/-- The number of characters of the line that a position is on. -/
theorem lineLength_eq (h : OnLine lines pos before line after) : (ofLines lines).lineLength before.length = some line.length := by
  have hlen := length_ofLines before line after
  rw [← h.split] at hlen
  cases after with
  | nil =>
    -- after the last line comes nothing
    have hne : lines ≠ [] := by simp [h.split]
    have hlast : lines.length = before.length + 1 := by simp [h.split]
    have hnext : (ofLines lines).lineStart (before.length + 1) = none :=
      Array.getElem?_eq_none (Nat.le_of_eq ((lineCount_ofLines hne).trans hlast))
    rw [List.flatMap_nil, List.length_nil, Nat.add_zero] at hlen
    simp only [lineLength, h.lineStart_eq, Option.map_some, hnext, hlen, Nat.add_sub_cancel_left]
  | cons next rest =>
    -- the separator is not counted
    have hsplit : lines = (before ++ [line]) ++ next :: rest := by simp [h.split]
    have hnext := (of_split hsplit).lineStart_eq
    rw [List.length_append, List.length_singleton, width_append, width, width] at hnext
    simp only [lineLength, h.lineStart_eq, Option.map_some, hnext]
    congr 1
    omega

/-- The line and the column of a position. -/
theorem seekLine_eq (h : OnLine lines pos before line after) :
    (ofLines lines).seekLine pos = some (before.length, pos - width before) := by
  have hin : ¬(ofLines lines).length < pos := by
    have hlen := length_ofLines before line after
    rw [← h.split] at hlen
    have hstop := h.le_stop
    omega
  have hbefore : ∀ start ∈ startsFrom 0 before, decide (start ≤ pos) = true := by
    intro start hs
    have hlt := lt_of_mem_startsFrom hs
    have hle := h.start_le
    simp only [decide_eq_true_eq]
    omega
  have hafter : (startsFrom (width before + (line.length + 1)) after).takeWhile (fun start => decide (start ≤ pos)) = [] := by
    cases hnext : startsFrom (width before + (line.length + 1)) after with
    | nil => rfl
    | cons next rest =>
      have hle := le_of_mem_startsFrom (hnext ▸ List.mem_cons_self)
      have hstop := h.le_stop
      rw [List.takeWhile_cons_of_neg (by simp only [decide_eq_true_eq]; omega)]
  have hline : ((ofLines lines).starts.toList.takeWhile fun start => decide (start ≤ pos)).length - 1 = before.length := by
    rw [h.starts_eq, List.takeWhile_append_of_pos hbefore, List.takeWhile_cons_of_pos (by simpa using h.start_le), hafter]
    simp [length_startsFrom]
  have hstart : (ofLines lines).starts.getD before.length 0 = width before := by
    have hget := h.lineStart_eq
    rw [lineStart] at hget
    rw [Array.getD_eq_getD_getElem?, hget]
    rfl
  simp only [seekLine, hin, if_false, hline, hstart]

end OnLine

/-- Later positions are on later lines, or on the same. -/
theorem seekLine_mono {s : LineStream} {pos pos' : Nat} {place place' : Nat × Nat} (hle : pos ≤ pos')
    (h : s.seekLine pos = some place) (h' : s.seekLine pos' = some place') : place.1 ≤ place'.1 := by
  unfold seekLine at h h'
  split at h
  · cases h
  · split at h'
    · cases h'
    · obtain rfl := Option.some.inj h
      obtain rfl := Option.some.inj h'
      refine Nat.sub_le_sub_right (length_takeWhile_mono ?_ _) 1
      intro start hs
      simp only [decide_eq_true_eq] at hs ⊢
      omega

/-- A stretch of text ends on the line on which it begins if and only if it holds no separator. -/
theorem OnLine.le_iff_no_separator {lines before after : List String} {line : String} {pos : Nat}
    (h : OnLine lines pos before line after) (hline : '\n' ∉ line.toList) {stop : Nat} (hstop : stop ≤ (ofLines lines).length) :
    stop ≤ width before + line.length ↔
      ∀ p, pos ≤ p → p < stop → (ofLines lines).stream.charAt p ≠ some '\n' := by
  have hchars : (ofLines lines).stream.chars.toList =
      before.flatMap (fun l => l.toList ++ ['\n']) ++ (line.toList ++ after.flatMap fun l => '\n' :: l.toList) := by
    rw [← toList_joinLines, ← h.split]
    rfl
  have hat (p : Nat) (hp : width before ≤ p) : (ofLines lines).stream.charAt p =
      (line.toList ++ after.flatMap fun l => '\n' :: l.toList)[p - width before]? := by
    rw [Stream.charAt, ← Array.getElem?_toList, hchars, List.getElem?_append_right (by rw [length_before]; exact hp),
      length_before]
  have hstart := h.start_le
  constructor
  · -- on the line there is none
    intro hle p hpos hlt
    rw [hat p (by omega), List.getElem?_append_left (by rw [String.length_toList]; omega)]
    intro hmem
    exact hline (List.mem_of_getElem? hmem)
  · -- a stretch that leaves the line passes over the separator that ends it
    intro hnone
    by_contra hout
    have hend := h.le_stop
    have hsep := hnone (width before + line.length) (by omega) (by omega)
    rw [hat _ (by omega), List.getElem?_append_right (by rw [String.length_toList]; omega), String.length_toList,
      Nat.add_sub_cancel_left, Nat.sub_self] at hsep
    cases after with
    | nil =>
      have hlen := length_ofLines before line []
      rw [← h.split] at hlen
      simp only [List.flatMap_nil, List.length_nil] at hlen
      omega
    | cons next rest => exact hsep rfl

end LineStream

end LiveHighlight
