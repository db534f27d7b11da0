/-!
# Cutting at a separator

Cutting a character list at every occurrence of one character. What is cut can be joined again: `cutAt_intercalate` says
that pieces without the separator, joined by it, are what the cut gives back.
-/

namespace LiveHighlight

/-- Cuts a character list at every separator. There is always at least one piece. -/
def cutAt (separator : Char) : List Char → List (List Char)
  | [] => [[]]
  | c :: rest =>
    if c = separator then [] :: cutAt separator rest
    else match cutAt separator rest with
      | [] => [[c]]
      | piece :: pieces => (c :: piece) :: pieces

theorem cutAt_ne_nil (separator : Char) (text : List Char) : cutAt separator text ≠ [] := by
  cases text with
  | nil => simp [cutAt]
  | cons c rest => simp only [cutAt]; split <;> (try split) <;> simp

/-- No piece holds the separator. -/
theorem not_mem_of_mem_cutAt {separator : Char} {text piece : List Char} (h : piece ∈ cutAt separator text) :
    separator ∉ piece := by
  induction text generalizing piece with
  | nil => simp_all [cutAt]
  | cons c rest ih =>
    simp only [cutAt] at h
    split at h
    · rcases List.mem_cons.1 h with rfl | h
      · simp
      · exact ih h
    · next hc =>
      split at h
      · have hp : piece = [c] := by simpa using h
        simpa [hp] using Ne.symm hc
      · next first others hrest =>
        rcases List.mem_cons.1 h with rfl | h
        · have : separator ∉ first := ih (by simp [hrest])
          simpa [this] using Ne.symm hc
        · exact ih (by simp [hrest, h])

/-- The first piece is the whole text, or it ends at the first separator. -/
theorem first_of_cutAt {separator : Char} {text first : List Char} {others : List (List Char)}
    (h : cutAt separator text = first :: others) : first = text ∨ first ++ [separator] <+: text := by
  induction text generalizing first others with
  | nil => exact .inl (List.cons.inj h).1.symm
  | cons c rest ih =>
    simp only [cutAt] at h
    split at h
    · next hc =>
      obtain ⟨rfl, -⟩ := List.cons.inj h
      exact .inr ⟨rest, by simp [hc]⟩
    · split at h
      · next hrest => exact absurd hrest (cutAt_ne_nil separator rest)
      · next piece pieces hrest =>
        obtain ⟨rfl, -⟩ := List.cons.inj h
        rcases ih hrest with rfl | hprefix
        · exact .inl rfl
        · exact .inr (by simpa using hprefix)

/-- Every piece ends where the text ends, or at a separator. -/
theorem suffix_or_infix_of_mem_cutAt {separator : Char} {text piece : List Char} (h : piece ∈ cutAt separator text) :
    piece <:+ text ∨ piece ++ [separator] <:+: text := by
  induction text with
  | nil => exact .inl (by simp_all [cutAt])
  | cons c rest ih =>
    -- a piece that is not the first is one of the rest
    have later (h : piece ∈ cutAt separator rest) : piece <:+ c :: rest ∨ piece ++ [separator] <:+: c :: rest :=
      (ih h).imp (·.trans (List.suffix_cons c rest)) List.infix_cons
    cases hcut : cutAt separator (c :: rest) with
    | nil => exact absurd hcut (cutAt_ne_nil separator _)
    | cons first others =>
      rw [hcut] at h
      rcases List.mem_cons.1 h with rfl | h
      · rcases first_of_cutAt hcut with rfl | hprefix
        · exact .inl List.suffix_rfl
        · exact .inr hprefix.isInfix
      · refine later ?_
        simp only [cutAt] at hcut
        split at hcut
        · rwa [(List.cons.inj hcut).2]
        · split at hcut
          · rw [(List.cons.inj hcut).2.symm] at h
            cases h
          · next hrest =>
            rw [hrest, (List.cons.inj hcut).2]
            exact .tail _ h

/-- A text without the separator is one piece. -/
theorem cutAt_of_not_mem {separator : Char} {text : List Char} (h : separator ∉ text) : cutAt separator text = [text] := by
  induction text with
  | nil => rfl
  | cons c rest ih =>
    simp only [List.mem_cons, not_or] at h
    simp only [cutAt, if_neg (Ne.symm h.1), ih h.2]

/-- A piece followed by a separator is cut off whole. -/
theorem cutAt_append_cons {separator : Char} {piece : List Char} (h : separator ∉ piece) (rest : List Char) :
    cutAt separator (piece ++ separator :: rest) = piece :: cutAt separator rest := by
  induction piece with
  | nil => simp [cutAt]
  | cons c piece ih =>
    simp only [List.mem_cons, not_or] at h
    simp only [List.cons_append, cutAt, if_neg (Ne.symm h.1), ih h.2]

/-- Pieces without the separator, joined by it, are what the cut gives back. -/
theorem cutAt_intercalate {separator : Char} {pieces : List (List Char)} (hne : pieces ≠ [])
    (h : ∀ piece ∈ pieces, separator ∉ piece) : cutAt separator ([separator].intercalate pieces) = pieces := by
  induction pieces with
  | nil => exact absurd rfl hne
  | cons piece rest ih =>
    cases rest with
    | nil => simp [cutAt_of_not_mem (h piece (by simp))]
    | cons next rest =>
      rw [List.intercalate_cons_cons, List.append_assoc, List.singleton_append, cutAt_append_cons (h piece (by simp)),
        ih (by simp) fun p hp => h p (by simp [hp])]

end LiveHighlight
