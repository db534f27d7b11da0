import LiveHighlight.Schedule.Work

/-!
# Work slots

A slot holds at most one worker and says when it is due. While a worker runs it is out of its slot, so a slot can be
stopped, started, paused or given other work in the meantime; the generation of a slot counts the workers discarded from it
and tells a step that its worker has lost its place.
-/

namespace LiveHighlight

/-- What a slot waits for. -/
inductive SlotPhase where
  | free
  /-- For its appointment. -/
  | queued (at_ : Nat)
  /-- For a step to end. -/
  | running
  /-- To be started again. -/
  | paused
  deriving DecidableEq, Repr

/-- A place for one worker. -/
structure Slot (ω : Type) where
  label : String
  worker : Option ω
  phase : SlotPhase
  /-- When the slot was armed last, counted over all slots: earlier comes first among equal appointments. -/
  seq : Nat
  generation : Nat
  /-- Whether a worker is being put in over another one that is being discarded. Meanwhile nothing may touch the slot. -/
  barred : Bool
  deriving DecidableEq, Repr

namespace Slot

variable {ω : Type}

/-- A free slot. -/
def fresh (label : String) : Slot ω := ⟨label, none, .free, 0, 0, false⟩

instance : Inhabited (Slot ω) := ⟨fresh ""⟩

/-- When the slot's worker is due, if it waits for that. -/
def appointment (s : Slot ω) : Option Nat :=
  match s.phase with
  | .queued at_ => some at_
  | _ => none

/-- Whether the slot is free. -/
def isFree (s : Slot ω) : Bool := decide (s.phase = .free)

/-- Whether the slot waits for an appointment that has come. -/
def isDue (s : Slot ω) (now : Nat) : Bool :=
  match s.phase with
  | .queued at_ => decide (at_ ≤ now)
  | _ => false

end Slot

end LiveHighlight
