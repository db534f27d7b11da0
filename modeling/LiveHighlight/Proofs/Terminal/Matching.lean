import LiveHighlight.Terminal.Basic
import Mathlib.Order.Bounds.Basic

/-!
# What terminals match

A terminal reads the text from its position on and nothing else. What it takes of that text is said by `Terminal.Takes`: a run takes
the longest stretch of its class, cut at the upper limit, and a lexeme takes itself. A terminal looks at no more than one character
behind those it goes along with (`Terminal.reach`), and none of the sums that it forms gets past the largest word
(`Terminal.matchInWords`). All of this together is `Terminal.munches`.
-/

namespace LiveHighlight

/-- The lengths of the prefixes of a text that have accepted characters only. -/
def acceptedLengths (accepts : Char → Bool) (text : List Char) : Set Nat :=
  {k | ∃ chars, chars <+: text ∧ chars.length = k ∧ ∀ c ∈ chars, accepts c = true}

/-- The sum of two words, none if it is past the largest word. -/
def addWords (a b : Nat) : Option Nat := if a + b ≤ unlimited then some (a + b) else none

namespace Stream

/-- The length of the stretch of accepted characters (`Stream.stretch`), none if a sum is past the largest word. -/
def stretchInWords (s : Stream) (accepts : Char → Bool) (pos : Nat) : (more found : Nat) → Option Nat
  | 0, found => some found
  | more + 1, found => do
    match s.charAt (← addWords pos found) with
    | some c => if accepts c then s.stretchInWords accepts pos more (← addWords found 1) else some found
    | none => some found

/-- Whether the stream reads the given characters (`Stream.readsAt`) behind the first `found`, none if a sum is past the largest
word. -/
def readsInWords (s : Stream) (pos : Nat) : (found : Nat) → List Char → Option Bool
  | _, [] => some true
  | found, c :: rest => do
    if s.charAt (← addWords pos found) = some c then s.readsInWords pos (← addWords found 1) rest else some false

end Stream

namespace Terminal

/-- Whether the terminal takes the first `n` characters of a text. -/
def Takes : Terminal → List Char → Nat → Prop
  | .token lexeme, text, n | .literal lexeme, text, n => lexeme ≠ "" ∧ lexeme.toList <+: text ∧ n = lexeme.length
  | .run accepted bounds, text, n =>
    ∃ longest, IsGreatest (acceptedLengths accepted.accepts text) longest ∧ n = min bounds.max longest ∧ bounds.min ≤ n
  | .empty, _, n => n = 0
  | .notBlank, text, n => n = 1 ∧ ∃ c rest, text = c :: rest ∧ isWhiteSpace c = false

/-- The number of characters of a text that the terminal goes along with, whether or not it matches in the end. The one behind them
is the one that stops it, if it does not stop by itself. -/
def reach : Terminal → List Char → Nat
  | .token lexeme, text | .literal lexeme, text => ((lexeme.toList.zip text).takeWhile fun pair => pair.1 == pair.2).length
  | .run accepted bounds, text => min bounds.max (text.takeWhile accepted.accepts).length
  | .empty, _ => 0
  | .notBlank, text => ((text.take 1).takeWhile fun c => !isWhiteSpace c).length

/-- What the terminal consumes (`Terminal.matchAt`), none if a sum that it forms on the way is past the largest word. -/
def matchInWords : Terminal → Stream → Nat → Option (Option Nat)
  | .token lexeme, s, pos | .literal lexeme, s, pos => do
    let reads ← s.readsInWords pos 0 lexeme.toList
    return if lexeme.toList ≠ [] ∧ reads then some lexeme.toList.length else none
  | .run accepted bounds, s, pos => do
    let length ← s.stretchInWords accepted.accepts pos bounds.max 0
    return if bounds.min ≤ length then some length else none
  | .empty, _, _ => some (some 0)
  | .notBlank, s, pos => some ((s.charAt pos).bind fun c => if isWhiteSpace c then none else some 1)

end Terminal

namespace MatchingAux

variable {s s' : Stream} {accepts : Char → Bool} {pos more found : Nat}

/-! ## The text from a position on -/

/-- Where there is a character, the text from there on begins with it. -/
theorem drop_of_charAt {c : Char} (h : s.charAt pos = some c) : s.toList.drop pos = c :: s.toList.drop (pos + 1) := by
  rw [Stream.charAt_eq_getElem?] at h
  obtain ⟨hlt, rfl⟩ := List.getElem?_eq_some_iff.1 h
  exact List.drop_eq_getElem_cons hlt

theorem drop_of_charAt_eq_none (h : s.charAt pos = none) : s.toList.drop pos = [] := by
  rw [Stream.charAt_eq_getElem?, List.getElem?_eq_none_iff] at h
  exact List.drop_eq_nil_of_le h

theorem lt_length_of_charAt {c : Char} (h : s.charAt pos = some c) : pos < s.length := by
  rw [Stream.charAt_eq_getElem?] at h
  rw [← Stream.length_toList]
  exact (List.getElem?_eq_some_iff.1 h).1

/-! ## Runs -/

/-- The longest prefix of accepted characters is the one up to the first that is not. -/
theorem isGreatest_takeWhile (accepts : Char → Bool) (text : List Char) :
    IsGreatest (acceptedLengths accepts text) (text.takeWhile accepts).length := by
  refine ⟨⟨_, List.takeWhile_prefix _, rfl, List.all_eq_true.1 List.all_takeWhile⟩, ?_⟩
  rintro _ ⟨chars, ⟨rest, rfl⟩, rfl, hall⟩
  rw [List.takeWhile_append_of_pos hall, List.length_append]
  exact Nat.le_add_right _ _

/-- A stretch goes on with the longest prefix of accepted characters, cut at the most that may follow. -/
theorem stretch_eq (s : Stream) (accepts : Char → Bool) (pos more found : Nat) :
    s.stretch accepts pos more found = found + min more ((s.toList.drop (pos + found)).takeWhile accepts).length := by
  induction more generalizing found with
  | zero => simp [Stream.stretch]
  | succ more ih =>
    unfold Stream.stretch
    cases hc : s.charAt (pos + found) with
    | none => simp [drop_of_charAt_eq_none hc]
    | some c =>
      rw [drop_of_charAt hc, List.takeWhile_cons]
      by_cases ha : accepts c = true
      · simp only [ha, if_true, ih, List.length_cons, Nat.add_assoc]
        omega
      · simp [ha]

/-- A stretch depends on its characters and the one behind them. -/
theorem stretch_congr (h : ∀ i, found ≤ i → i ≤ s.stretch accepts pos more found → s'.charAt (pos + i) = s.charAt (pos + i)) :
    s'.stretch accepts pos more found = s.stretch accepts pos more found := by
  induction more generalizing found with
  | zero => rfl
  | succ more ih =>
    have hfirst : s'.charAt (pos + found) = s.charAt (pos + found) := by
      refine h found (Nat.le_refl _) ?_
      rw [stretch_eq]
      exact Nat.le_add_right _ _
    simp only [Stream.stretch] at h ⊢
    rw [hfirst]
    cases hc : s.charAt (pos + found) with
    | none => rfl
    | some c =>
      by_cases ha : accepts c = true
      · simp only [hc, ha, if_true] at h ⊢
        exact ih fun i hi => h i (by omega)
      · simp [ha]

/-- A stretch in a stream whose positions are words is found without a sum that is none. -/
theorem stretchInWords_eq (hpos : pos + found ≤ unlimited) (hs : s.length ≤ unlimited) :
    s.stretchInWords accepts pos more found = some (s.stretch accepts pos more found) := by
  induction more generalizing found with
  | zero => rfl
  | succ more ih =>
    have hat : addWords pos found = some (pos + found) := if_pos hpos
    simp only [Stream.stretchInWords, Stream.stretch, hat, Option.bind_eq_bind, Option.bind_some]
    cases hc : s.charAt (pos + found) with
    | none => rfl
    | some c =>
      have hlt := lt_length_of_charAt hc
      have hnext : addWords found 1 = some (found + 1) := if_pos (by omega)
      by_cases ha : accepts c = true
      · simp only [ha, if_true, hnext, Option.bind_some]
        exact ih (by omega)
      · simp [ha]

/-! ## Lexemes -/

/-- A stream reads the characters that its text begins with. -/
theorem readsAt_iff (s : Stream) (pos : Nat) (chars : List Char) : s.readsAt pos chars = true ↔ chars <+: s.toList.drop pos := by
  induction chars generalizing pos with
  | nil => simp [Stream.readsAt]
  | cons c rest ih =>
    rw [Stream.readsAt, Bool.and_eq_true, beq_iff_eq, ih]
    cases hc : s.charAt pos with
    | none => simp [drop_of_charAt_eq_none hc]
    | some first => simp [drop_of_charAt hc, List.cons_prefix_cons, eq_comm]

/-- A lexeme agrees with a text that begins with it as far as it goes. -/
theorem length_takeWhile_zip (chars rest : List Char) :
    ((chars.zip (chars ++ rest)).takeWhile fun pair => pair.1 == pair.2).length = chars.length := by
  induction chars with
  | nil => rfl
  | cons c chars ih => simp [ih]

/-- Whether a stream reads some characters depends on those of them that it reads and the one behind. -/
theorem readsAt_congr {chars : List Char}
    (h : ∀ i ≤ ((chars.zip (s.toList.drop pos)).takeWhile fun pair => pair.1 == pair.2).length,
      s'.charAt (pos + i) = s.charAt (pos + i)) : s'.readsAt pos chars = s.readsAt pos chars := by
  induction chars generalizing pos with
  | nil => rfl
  | cons c rest ih =>
    have hfirst : s'.charAt pos = s.charAt pos := h 0 (Nat.zero_le _)
    rw [Stream.readsAt, Stream.readsAt, hfirst]
    by_cases hc : s.charAt pos = some c
    · rw [drop_of_charAt hc, List.zip_cons_cons, List.takeWhile_cons_of_pos (by simp), List.length_cons] at h
      rw [ih]
      intro i hi
      have hlater := h (i + 1) (Nat.succ_le_succ hi)
      rwa [← Nat.add_assoc, Nat.add_right_comm] at hlater
    · simp [beq_eq_false_iff_ne.2 hc]

/-- Characters are read in a stream whose positions are words without a sum that is none. -/
theorem readsInWords_eq {chars : List Char} (hpos : pos + found ≤ unlimited) (hs : s.length ≤ unlimited) :
    s.readsInWords pos found chars = some (s.readsAt (pos + found) chars) := by
  induction chars generalizing found with
  | nil => rfl
  | cons c rest ih =>
    have hat : addWords pos found = some (pos + found) := if_pos hpos
    simp only [Stream.readsInWords, Stream.readsAt, hat, Option.bind_eq_bind, Option.bind_some]
    by_cases hc : s.charAt (pos + found) = some c
    · have hlt := lt_length_of_charAt hc
      have hnext : addWords found 1 = some (found + 1) := if_pos (by omega)
      simp only [hc, if_true, hnext, Option.bind_some, beq_self_eq_true, Bool.true_and]
      exact ih (by omega)
    · simp [hc]

end MatchingAux

open MatchingAux

namespace Terminal

/-- A terminal takes of a text what it consumes where the text begins. -/
theorem matchAt_eq_some_iff (t : Terminal) (s : Stream) (pos n : Nat) : t.matchAt s pos = some n ↔ t.Takes (s.toList.drop pos) n := by
  have lexeme (text : String) : matchLexeme text s pos = some n ↔
      text ≠ "" ∧ text.toList <+: s.toList.drop pos ∧ n = text.length := by
    rw [matchLexeme, Option.ite_some_none_eq_some, readsAt_iff, and_assoc, String.length_toList, eq_comm (a := text.length),
      Ne, String.toList_eq_nil_iff]
  cases t with
  | token text | literal text => exact lexeme text
  | run accepted bounds =>
    have hgreatest := isGreatest_takeWhile accepted.accepts (s.toList.drop pos)
    simp only [matchAt, Takes, stretch_eq, Nat.zero_add, Nat.add_zero, Option.ite_none_right_eq_some, Option.some.injEq]
    constructor
    · rintro ⟨hmin, rfl⟩
      exact ⟨_, hgreatest, rfl, hmin⟩
    · rintro ⟨longest, hlongest, rfl, hmin⟩
      obtain rfl := hlongest.unique hgreatest
      exact ⟨hmin, rfl⟩
  | empty => simp [matchAt, Takes, eq_comm]
  | notBlank =>
    simp only [matchAt, Takes]
    cases hc : s.charAt pos with
    | none => simp [drop_of_charAt_eq_none hc]
    | some c =>
      rw [drop_of_charAt hc, Option.bind_some]
      constructor
      · intro h
        obtain ⟨hblank, hn⟩ := Option.ite_none_left_eq_some.1 h
        obtain rfl := Option.some.inj hn
        exact ⟨rfl, c, _, rfl, by simpa using hblank⟩
      · rintro ⟨rfl, _, _, ⟨⟩, hblank⟩
        rw [hblank]
        rfl

/-- What a terminal takes it goes along with, and no further. -/
theorem Takes.eq_reach {t : Terminal} {text : List Char} {n : Nat} (h : t.Takes text n) : n = t.reach text := by
  cases t with
  | token lexeme | literal lexeme =>
    obtain ⟨-, ⟨rest, rfl⟩, rfl⟩ := h
    rw [reach, length_takeWhile_zip, String.length_toList]
  | run accepted bounds =>
    obtain ⟨longest, hlongest, rfl, -⟩ := h
    rw [reach, hlongest.unique (isGreatest_takeWhile accepted.accepts text)]
  | empty => exact h
  | notBlank =>
    obtain ⟨rfl, c, rest, rfl, hc⟩ := h
    simp [reach, hc]

/-- What a terminal takes of a text is there. -/
theorem reach_le (t : Terminal) (text : List Char) : t.reach text ≤ text.length := by
  cases t with
  | token lexeme | literal lexeme =>
    refine Nat.le_trans (List.takeWhile_prefix _).length_le ?_
    rw [List.length_zip]
    exact Nat.min_le_right _ _
  | run accepted bounds => exact Nat.le_trans (Nat.min_le_right _ _) (List.takeWhile_prefix _).length_le
  | empty => exact Nat.zero_le _
  | notBlank => exact Nat.le_trans (List.takeWhile_prefix _).length_le (List.length_take_le' 1 text)

/-- A terminal depends on the characters that it goes along with and the one behind them. -/
theorem matchAt_congr (t : Terminal) {s s' : Stream} {pos : Nat}
    (h : ∀ i ≤ t.reach (s.toList.drop pos), s'.charAt (pos + i) = s.charAt (pos + i)) : t.matchAt s' pos = t.matchAt s pos := by
  cases t with
  | token lexeme | literal lexeme => simp only [matchAt, matchLexeme, readsAt_congr h]
  | run accepted bounds =>
    have hstretch : s'.stretch accepted.accepts pos bounds.max 0 = s.stretch accepted.accepts pos bounds.max 0 := by
      refine stretch_congr fun i _ hi => h i ?_
      rwa [stretch_eq, Nat.zero_add] at hi
    simp only [matchAt, hstretch]
  | empty => rfl
  | notBlank =>
    have hfirst : s'.charAt pos = s.charAt pos := h 0 (Nat.zero_le _)
    simp only [matchAt, hfirst]

/-- Where positions are words, the sums that a terminal forms are words. -/
theorem matchInWords_eq (t : Terminal) {s : Stream} {pos : Nat} (hpos : pos ≤ unlimited) (hs : s.length ≤ unlimited) :
    t.matchInWords s pos = some (t.matchAt s pos) := by
  cases t with
  | token lexeme | literal lexeme =>
    have hreads : s.readsInWords pos 0 lexeme.toList = some (s.readsAt pos lexeme.toList) := readsInWords_eq hpos hs
    simp only [matchInWords, matchAt, matchLexeme, hreads]
    rfl
  | run accepted bounds =>
    have hstretch : s.stretchInWords accepted.accepts pos bounds.max 0 = some (s.stretch accepted.accepts pos bounds.max 0) :=
      stretchInWords_eq hpos hs
    simp only [matchInWords, matchAt, hstretch]
    rfl
  | empty => rfl
  | notBlank => rfl

/-- A terminal consumes `n` characters at a position, be it past the end, exactly if it takes as many of the text from there on: a run
as many as the longest stretch of its class has, cut at its upper limit and no fewer than its lower one, a lexeme itself, if it is not
empty, and other than that nothing or one character that is no white space. What is consumed, if it is anything, ends in the stream.
Whatever comes of it, it is the same in all streams that have the same characters where the terminal goes along and right behind; a
terminal that matches goes along with what it consumes. Where positions are words, so are all sums that are formed. -/
theorem munches (t : Terminal) (s : Stream) (pos : Nat) :
    (∀ n, t.matchAt s pos = some n ↔ t.Takes (s.toList.drop pos) n) ∧
    (∀ n, t.matchAt s pos = some n → n = t.reach (s.toList.drop pos) ∧ (0 < n → pos + n ≤ s.length)) ∧
    (∀ s' : Stream, (∀ i ≤ t.reach (s.toList.drop pos), s'.charAt (pos + i) = s.charAt (pos + i)) →
      t.matchAt s' pos = t.matchAt s pos) ∧
    (pos ≤ unlimited → s.length ≤ unlimited →
      t.matchInWords s pos = some (t.matchAt s pos) ∧ ∀ n, t.matchAt s pos = some n → pos + n ≤ unlimited) := by
  have consumed {n : Nat} (h : t.matchAt s pos = some n) :
      n = t.reach (s.toList.drop pos) ∧ (0 < n → pos + n ≤ s.length) := by
    have hreach := ((t.matchAt_eq_some_iff s pos n).1 h).eq_reach
    have hle := t.reach_le (s.toList.drop pos)
    rw [← hreach, List.length_drop, Stream.length_toList] at hle
    exact ⟨hreach, fun hn => by omega⟩
  refine ⟨t.matchAt_eq_some_iff s pos, fun n => consumed, fun s' => t.matchAt_congr, ?_⟩
  intro hpos hs
  refine ⟨t.matchInWords_eq hpos hs, fun n h => ?_⟩
  have hin := (consumed h).2
  omega

/-- Three of four digits in a row, in two texts that have these in common. -/
theorem munches_capped :
    let t := Terminal.run .digit ⟨2, 3⟩
    let s := Stream.ofString "ab1234x"
    let s' := Stream.ofString "  1234"
    2 ≤ unlimited ∧ s.length ≤ unlimited ∧ t.matchAt s 2 = some 3 ∧ t.reach (s.toList.drop 2) = 3 ∧
      (∀ i ≤ 3, s'.charAt (2 + i) = s.charAt (2 + i)) ∧
      t.Takes (s.toList.drop 2) 3 ∧ 2 + 3 ≤ s.length ∧ t.matchAt s' 2 = some 3 ∧ t.matchInWords s 2 = some (some 3) ∧
      2 + 3 ≤ unlimited := by
  intro t s s'
  have hpos : 2 ≤ unlimited := by decide
  have hs : s.length ≤ unlimited := by decide
  have hmatch : t.matchAt s 2 = some 3 := by decide
  have hreach : t.reach (s.toList.drop 2) = 3 := by decide
  have hsame : ∀ i ≤ 3, s'.charAt (2 + i) = s.charAt (2 + i) := by decide
  obtain ⟨htakes, hconsumed, hcongr, hwords⟩ := munches t s 2
  have hwords := hwords hpos hs
  rw [hmatch] at hcongr hwords
  rw [hreach] at hcongr
  exact ⟨hpos, hs, hmatch, hreach, hsame, (htakes 3).1 hmatch, (hconsumed 3 hmatch).2 (by decide), hcongr s' hsame, hwords.1,
    hwords.2 3 rfl⟩

end Terminal

end LiveHighlight
