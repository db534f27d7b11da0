import LiveHighlight.Schedule.Slot

/-!
# The scheduler

Slots and the list of those that wait for something. A round steps every slot that is due, the earliest appointment first
and among equal appointments the one armed first, so that a worker which keeps going on goes to the back of the line. The
operations here are the parts of a round and of a host's calls between which other code may run: a worker that is to be
discarded is handed back, and what its end brings about happens before the next operation.
-/

namespace LiveHighlight

/-- How a scheduler is tuned. -/
structure SchedulerOptions where
  /-- How long a slice keeps running rounds. -/
  timeSlice : Nat
  /-- The longest wait that a report gives. -/
  maxWait : Nat
  /-- The most rounds of a slice. -/
  maxRounds : Nat
  deriving DecidableEq, Repr

/-- The tuning of a scheduler that is given none. -/
def SchedulerOptions.standard : SchedulerOptions := ⟨50, 100, 256⟩

/-- What a round did and when the host should come back. -/
structure TickReport where
  /-- The number of steps. -/
  ran : Nat
  /-- The time until the earliest appointment, if there is one. -/
  nextWait : Option Nat
  deriving DecidableEq, Repr

/-- Whether nothing is scheduled. -/
def TickReport.isIdle (r : TickReport) : Bool := r.nextWait.isNone

/-- Slots, and those of them that hold or wait for a worker. -/
structure Scheduler (ω : Type) where
  slots : List (Slot ω)
  pending : List Nat
  nextSeq : Nat
  options : SchedulerOptions
  deriving DecidableEq, Repr

/-- What a round finds at a slot. -/
inductive Claim (ω : Type) where
  /-- Nothing is due. -/
  | skip
  /-- Something is due but there is no worker; the slot is now free. -/
  | vacant
  /-- A worker to be stepped, and the generation of the slot. -/
  | step (worker : ω) (generation : Nat)
  deriving DecidableEq, Repr

/-- What the end of a step leaves to be done. -/
structure Conclusion (ω : Type) where
  discarded : Option ω
  /-- The worker that goes back to the slot once the one it takes over from is discarded. -/
  returning : Option ω
  /-- Whether the slot leaves the list of pending ones once the worker is discarded. -/
  finished : Bool
  fault : Option WorkFault
  deriving DecidableEq, Repr

namespace Scheduler

variable {ω : Type}

/-- A scheduler without slots. -/
def new (options : SchedulerOptions) : Scheduler ω := ⟨[], [], 0, options⟩

instance : Inhabited (Scheduler ω) := ⟨new .standard⟩

/-- The slot with a number; of numbers not given yet, a free one. -/
def slot (s : Scheduler ω) (id : Nat) : Slot ω := s.slots[id]?.getD (.fresh "")

/-- The scheduler with one slot changed. -/
def update (s : Scheduler ω) (id : Nat) (f : Slot ω → Slot ω) : Scheduler ω := { s with slots := s.slots.modify id f }

/-- Adds a free slot, and gives its number. -/
def add (s : Scheduler ω) (label : String) : Scheduler ω × Nat :=
  ({ s with slots := s.slots ++ [.fresh label] }, s.slots.length)

/-- Puts a slot on the list of pending ones, once. -/
def enlist (s : Scheduler ω) (id : Nat) : Scheduler ω :=
  if id ∈ s.pending then s else { s with pending := s.pending ++ [id] }

/-- Takes a slot off the list of pending ones. -/
def delist (s : Scheduler ω) (id : Nat) : Scheduler ω := { s with pending := s.pending.filter (· ≠ id) }

/-- Lets a slot wait for an appointment, armed last of all. -/
def appoint (s : Scheduler ω) (id at_ : Nat) : Scheduler ω :=
  { s.update id fun slot => { slot with phase := .queued at_, seq := s.nextSeq } with nextSeq := s.nextSeq + 1 }

/-- Frees a slot and hands back the worker it held. A step under way ends, but its worker has lost its place. -/
def stop (s : Scheduler ω) (id : Nat) : Scheduler ω × Option ω :=
  let slot := s.slot id
  if slot.phase = .free ∧ slot.worker.isNone then (s, none)
  else
    ((s.update id fun slot => { slot with worker := none, phase := .free, generation := slot.generation + 1 }).delist id,
      slot.worker)

/-- Takes out the worker that a slot holds before another one is put in; until then the slot is barred. -/
def evict (s : Scheduler ω) (id : Nat) : Scheduler ω :=
  s.update id fun slot => { slot with worker := none, barred := true }

/-- Puts a worker into a slot with an appointment. -/
def install (s : Scheduler ω) (id : Nat) (worker : ω) (at_ : Nat) : Scheduler ω :=
  ((s.update id fun slot => { slot with worker := some worker, barred := false }).appoint id at_).enlist id

/-- Gives the slot's worker an appointment, and says whether there was one to give it to. A worker under way counts. -/
def start (s : Scheduler ω) (id at_ : Nat) : Scheduler ω × Bool :=
  let slot := s.slot id
  if slot.worker.isNone ∧ slot.phase ≠ .running then (s, false)
  else ((s.appoint id at_).enlist id, true)

/-- Takes the appointment away and keeps the worker, and says whether the slot was in use. -/
def pause (s : Scheduler ω) (id : Nat) : Scheduler ω × Bool :=
  match (s.slot id).phase with
  | .free => (s, false)
  | .paused => (s, true)
  | .queued _ => (s.update id fun slot => { slot with phase := .paused }, true)
  | .running => (s.update id fun slot => { slot with phase := .paused }, true)

/-- Takes a worker out for a step if the slot is still due. -/
def claim (s : Scheduler ω) (id now : Nat) : Scheduler ω × Claim ω :=
  let slot := s.slot id
  if slot.isDue now then
    match slot.worker with
    | none => ((s.update id fun slot => { slot with phase := .free }).delist id, .vacant)
    | some worker =>
      (s.update id fun slot => { slot with worker := none, phase := .running }, .step worker slot.generation)
  else (s, .skip)

/-- Puts a worker back into its slot, whose appointment stays. -/
def restore (s : Scheduler ω) (id : Nat) (worker : ω) : Scheduler ω :=
  s.update id fun slot => { slot with worker := some worker, barred := false }

/-- Ends a step. A worker whose place is still its own goes back for another step, over any other that was put in without
the place having been stopped, unless it is done or failed; a worker that has lost its place is discarded. -/
def conclude (s : Scheduler ω) (id generation : Nat) (worker : ω) (outcome : Outcome) (now : Nat) :
    Scheduler ω × Conclusion ω :=
  let slot := s.slot id
  if slot.generation ≠ generation then (s, ⟨some worker, none, slot.isFree, none⟩)
  else match outcome with
    | .ok (.again delay) =>
      let s := if slot.phase = .running then s.appoint id (now + delay) else s
      match slot.worker with
      | none => (s.restore id worker, ⟨none, none, false, none⟩)
      | some other => (s.evict id, ⟨some other, some worker, false, none⟩)
    | .ok .finished => (s.update id fun slot => { slot with phase := .free }, ⟨some worker, none, true, none⟩)
    | .error fault =>
      (s.update id fun slot => { slot with phase := .free, generation := slot.generation + 1 },
        ⟨some worker, none, true, some fault⟩)

/-- Whether a round steps `a` before `b`. -/
def before (s : Scheduler ω) (a b : Nat) : Bool :=
  let key (id : Nat) : Nat × Nat := (((s.slot id).appointment).getD 0, (s.slot id).seq)
  decide ((key a).1 < (key b).1 ∨ (key a).1 = (key b).1 ∧ (key a).2 ≤ (key b).2)

/-- The slots that are due, in the order in which a round steps them. -/
def due (s : Scheduler ω) (now : Nat) : List Nat := (s.pending.filter fun id => (s.slot id).isDue now).mergeSort s.before

/-- The time until the earliest appointment, at most the longest wait; none without appointments. -/
def nextWait (s : Scheduler ω) (now : Nat) : Option Nat :=
  ((s.pending.filterMap fun id => (s.slot id).appointment).map (· - now)).min?.map (min · s.options.maxWait)

/-- Whether a pending slot is barred. -/
def anyBarred (s : Scheduler ω) : Bool := s.pending.any fun id => (s.slot id).barred

end Scheduler

end LiveHighlight
