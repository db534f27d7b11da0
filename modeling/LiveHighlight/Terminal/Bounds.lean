/-!
# Bounds of a run

How many characters a run may consume. Counts are words of 64 bits, so the largest word stands for no upper limit. Made
bounds admit at least one character and their limits do not cross (`Bounds.make_eq_ok_iff`).
-/

namespace LiveHighlight

/-- The upper limit that never binds: the largest word. -/
def unlimited : Nat := 0xFFFFFFFFFFFFFFFF

/-- The fewest and the most characters of a run. A least count of zero lets the run be empty. -/
structure Bounds where
  min : Nat
  max : Nat
  deriving DecidableEq, Repr, Inhabited

/-- Why two limits make no bounds. -/
inductive BoundsError where
  | noRoom
  | crossed (min max : Nat)
  deriving DecidableEq, Repr

/-- The words for a refusal. -/
def BoundsError.message : BoundsError → String
  | .noRoom => "max must be at least 1"
  | .crossed min max => s!"min {min} is greater than max {max}"

namespace Bounds

/-- One or more characters, as long as the class holds. -/
def run : Bounds := ⟨1, unlimited⟩

/-- Exactly one character. -/
def one : Bounds := ⟨1, 1⟩

/-- Bounds from two limits: the upper one is checked for room before the two are compared. -/
def make (min max : Nat) : Except BoundsError Bounds :=
  if max = 0 then .error .noRoom
  else if max < min then .error (.crossed min max)
  else .ok ⟨min, max⟩

/-- Replaces the limits that are given and keeps the others. -/
def narrow (b : Bounds) (min max : Option Nat) : Except BoundsError Bounds := make (min.getD b.min) (max.getD b.max)

/-- The bounds as written behind a class: nothing for a plain run, and no upper limit where none binds. -/
def display (b : Bounds) : String :=
  if b.max = unlimited then
    if b.min = 1 then "" else s!"\x7b{b.min},\x7d"
  else s!"\x7b{b.min},{b.max}\x7d"

/-- Bounds are made exactly of limits that leave room and do not cross. -/
theorem make_eq_ok_iff (min max : Nat) (b : Bounds) :
    make min max = .ok b ↔ 1 ≤ max ∧ min ≤ max ∧ b = ⟨min, max⟩ := by
  unfold make
  split
  · simp; omega
  · split
    · simp; omega
    · simp only [Except.ok.injEq]
      constructor
      · rintro rfl; exact ⟨by omega, by omega, rfl⟩
      · rintro ⟨-, -, rfl⟩; rfl

example : Bounds.display ⟨0, 3⟩ = "\x7b0,3\x7d" := by decide +kernel

end Bounds

end LiveHighlight
