import LiveHighlight.Proofs.Document.Reach
import LiveHighlight.Proofs.Highlight.Progress

/-!
# Loading the text of a buffer again

The lines of a buffer joined together are cut at the same places again, and each of them loses the carriage return that ends it, if
there is one (`Buffer.Lined.texts_reload`). A line keeps a carriage return at its end only where the text had two of them. So a
buffer has the same lines after its text is loaded again if and only if none of them ends with a carriage return, and that is so
whenever the texts that it came from have no such pair (`Buffer.reloaded`).
-/

namespace LiveHighlight

/-- A line without the carriage return that ends it, if there is one. -/
def withoutReturn (line : String) : String := String.ofList (dropCarriageReturn line.toList)

/-- Whether a line feed or the end of a text never comes right after two carriage returns. -/
def SingleReturns (text : String) : Prop := ¬ ['\r', '\r'] <:+ text.toList ∧ ¬ ['\r', '\r', '\n'] <:+: text.toList

instance (text : String) : Decidable (SingleReturns text) := inferInstanceAs (Decidable (_ ∧ _))

namespace ReloadAux

/-! ## Carriage returns at the end of a line -/

theorem dropCarriageReturn_eq_self_iff (piece : List Char) : dropCarriageReturn piece = piece ↔ piece.getLast? ≠ some '\r' := by
  unfold dropCarriageReturn
  split
  · next hlast =>
    obtain ⟨start, rfl⟩ := List.getLast?_eq_some_iff.1 hlast
    simp
  · next hlast => simp [hlast]

theorem withoutReturn_eq_self_iff (line : String) : withoutReturn line = line ↔ line.toList.getLast? ≠ some '\r' := by
  rw [← dropCarriageReturn_eq_self_iff, withoutReturn]
  constructor
  · intro h
    have hlist := congrArg String.toList h
    rwa [String.toList_ofList] at hlist
  · intro h
    rw [h, String.ofList_toList]

/-- One carriage return is taken off, so one that is left was the first of two. -/
theorem pair_of_getLast? {piece : List Char} (h : (dropCarriageReturn piece).getLast? = some '\r') :
    ['\r', '\r'] <:+ piece := by
  unfold dropCarriageReturn at h
  split at h
  · next hlast =>
    obtain ⟨start, rfl⟩ := List.getLast?_eq_some_iff.1 hlast
    rw [List.dropLast_concat] at h
    obtain ⟨front, rfl⟩ := List.getLast?_eq_some_iff.1 h
    exact ⟨front, by simp⟩
  · next hlast => exact absurd h hlast

/-- The lines of a text without such pairs do not end with carriage returns. -/
theorem getLast?_of_mem_linesOf {text : String} (ht : SingleReturns text) {line : Line} (h : line ∈ Buffer.linesOf text) :
    line.text.toList.getLast? ≠ some '\r' := by
  simp only [Buffer.linesOf, splitLines, List.map_map, List.mem_map] at h
  obtain ⟨piece, hpiece, rfl⟩ := h
  intro hlast
  have hpair : ['\r', '\r'] <:+ piece := by
    refine pair_of_getLast? ?_
    simpa only [Function.comp_apply, Line.ofText, String.toList_ofList] using hlast
  rcases suffix_or_infix_of_mem_cutAt hpiece with hsuffix | hinfix
  · exact ht.1 (hpair.trans hsuffix)
  · obtain ⟨front, rfl⟩ := hpair
    refine ht.2 (List.IsInfix.trans ⟨front, [], ?_⟩ hinfix)
    simp

/-! ## Joining lines and cutting them again -/

/-- Lines without line feeds that are joined together are cut at the same places again. -/
theorem splitLines_joinLines {lines : List String} (hne : lines ≠ []) (h : ∀ line ∈ lines, '\n' ∉ line.toList) :
    splitLines (joinLines lines) = lines.map withoutReturn := by
  have hpieces : ∀ piece ∈ lines.map String.toList, '\n' ∉ piece := by
    intro piece hpiece
    obtain ⟨line, hline, rfl⟩ := List.mem_map.1 hpiece
    exact h line hline
  rw [splitLines, joinLines, String.toList_intercalate, show "\n".toList = ['\n'] from rfl,
    cutAt_intercalate (by simpa using hne) hpieces, List.map_map]
  rfl

end ReloadAux

open ReloadAux

namespace Buffer

theorem texts_ofText (text : String) : (ofText text).texts = splitLines text := by
  simp only [texts, ofText, linesOf, List.map_map]
  exact List.map_id _

/-- The lines after the text of a buffer is loaded again: each without the carriage return that ends it. -/
theorem Lined.texts_reload {b : Buffer} (hb : b.Lined) : (ofText b.text).texts = b.texts.map withoutReturn := by
  obtain ⟨hne, hsingle⟩ := lined_iff.1 hb
  rw [texts_ofText, text, show b.lines.map (·.text) = b.texts from rfl, splitLines_joinLines hne hsingle]

/-- Texts without pairs of carriage returns at the end of a line never come to a line that ends with one. -/
theorem getLast?_of_revise {text : String} {edits : List Edit} (htext : SingleReturns text)
    (hedits : ∀ e ∈ edits, SingleReturns e.text) :
    ∀ line ∈ ((ofText text).revise edits).lines, line.text.toList.getLast? ≠ some '\r' := by
  refine revise_induction (P := fun b => ∀ line ∈ b.lines, line.text.toList.getLast? ≠ some '\r') ?_ ?_
  · exact fun line h => getLast?_of_mem_linesOf htext h
  · intro b b' e event he hb hedit line hline
    rcases mem_of_edit hedit hline with hold | hnew
    · exact hb line hold
    · exact getLast?_of_mem_linesOf (hedits e he) hnew

/-- Whatever was edited into a document from whatever text, loading its text again, or making another document of it, gives as many
lines, each as it was but without the carriage return that ends it. So the lines are the same if and only if none of them ends with
a carriage return. They are the same if no text that came in has two carriage returns at the end of a line. -/
theorem reloaded (text : String) (edits : List Edit) :
    let b := (ofText text).revise edits
    (∀ other : Buffer, other.revise [.load b.text] = ofText b.text) ∧
    (ofText b.text).texts = b.texts.map withoutReturn ∧
    ((ofText b.text).texts = b.texts ↔ ∀ line ∈ b.texts, line.toList.getLast? ≠ some '\r') ∧
    (SingleReturns text → (∀ e ∈ edits, SingleReturns e.text) → (ofText b.text).texts = b.texts) := by
  intro b
  have hreload : (ofText b.text).texts = b.texts.map withoutReturn := ((lined_ofText text).revise edits).texts_reload
  have hiff : (ofText b.text).texts = b.texts ↔ ∀ line ∈ b.texts, line.toList.getLast? ≠ some '\r' := by
    rw [hreload]
    conv_lhs => rhs; rw [← List.map_id b.texts]
    simp only [List.map_inj_left, id, withoutReturn_eq_self_iff]
  refine ⟨fun _ => rfl, hreload, hiff, ?_⟩
  intro htext hedits
  refine hiff.2 ?_
  intro line hline
  obtain ⟨l, hl, rfl⟩ := List.mem_map.1 hline
  exact getLast?_of_revise htext hedits l hl

/-- Carriage returns before, within and after lines, and an edit that is refused. -/
theorem reloaded_returns :
    let edits := [Edit.insertLine 1 "\rc\r\n\rd\re", .removeLine 7]
    SingleReturns "a\r\n\r\rb\r" ∧ (∀ e ∈ edits, SingleReturns e.text) ∧
    ((ofText "a\r\n\r\rb\r").revise edits).texts = ["a", "\rc", "\rd\re", "\r\rb"] ∧
    (ofText ((ofText "a\r\n\r\rb\r").revise edits).text).texts = ((ofText "a\r\n\r\rb\r").revise edits).texts :=
  have htext : SingleReturns "a\r\n\r\rb\r" := by decide +kernel
  have hedits : ∀ e ∈ [Edit.insertLine 1 "\rc\r\n\rd\re", .removeLine 7], SingleReturns e.text := by decide +kernel
  ⟨htext, hedits, by decide +kernel, (reloaded _ _).2.2.2 htext hedits⟩

/-- Of two carriage returns at the end of a line, one is taken off when the line comes in and the other when the text of the
document is loaded again. -/
theorem reloaded_pair :
    ((ofText "").revise [.setText "a\r\r\nb"]).texts = ["a\r", "b"] ∧
    (ofText ((ofText "").revise [.setText "a\r\r\nb"]).text).texts = ["a", "b"] := by
  decide +kernel

end Buffer

end LiveHighlight
