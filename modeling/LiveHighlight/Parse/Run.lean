import LiveHighlight.Parse.Listener
import LiveHighlight.Parse.Lookahead

/-!
# Parse runs

A run walks a grammar over a stream and can stop after any step. What is still to be matched is an explicit stack of places
in the grammar, each with the depth budget it is expanded with. With nothing pending, the run expands the start state at its
position; where the start state matches nothing, or nothing but the empty text, the run reports an error there and passes
over one character.
-/

namespace LiveHighlight

/-- Where a pending element stands: at the top level, or in a production of a state. -/
inductive Site where
  | top
  | inside (state production index : Nat)
  deriving DecidableEq, Repr

/-- An element still to be matched and the depth budget for its expansion. -/
structure Pending where
  site : Site
  depth : Nat
  deriving DecidableEq, Repr

/-- Whether a run goes on, has consumed its stream, or was ended by a fault. -/
inductive RunPhase where
  | running | finished | failed
  deriving DecidableEq, Repr

/-- A parse that can be suspended. -/
structure Run where
  grammar : Grammar
  maxDepth : Nat
  /-- What is to be matched next comes first. -/
  pending : List Pending
  position : Nat
  phase : RunPhase
  deriving DecidableEq, Repr

/-- The depth budget of a run that names none. -/
def defaultMaxDepth : Nat := 30

/-- A step that a run is about to take: what it tells, and where it stands afterwards. -/
structure Move where
  event : Option Event
  position : Nat
  pending : List Pending
  deriving DecidableEq, Repr

/-- The element at a site. -/
def Grammar.elementAt (g : Grammar) : Site → Except ParseFault Element
  | .top => .ok g.startElement
  | .inside id production index =>
    match g.state? id with
    | none => .error (.unknownState id)
    | some state =>
      match (state.productions[production]?).bind (·[index]?) with
      | some e => .ok e
      | none => .error (.unknownElement state.name production index)

/-- The elements of a production as pending elements, the first one first. -/
def Grammar.expand (g : Grammar) (id production depth : Nat) : Except ParseFault (List Pending) :=
  match (g.state? id).bind (·.productions[production]?) with
  | none => .error (.unknownState id)
  | some elements => .ok ((List.range elements.length).map fun index => ⟨.inside id production index, depth⟩)

namespace Run

/-- A run at the beginning of a stream. Every run may expand at least one level. -/
def start (g : Grammar) (maxDepth : Nat) : Run := ⟨g, max maxDepth 1, [], 0, .running⟩

/-- Whether the run has ended. -/
def isDone (r : Run) : Bool := decide (r.phase ≠ .running)

/-- The event of a match at the run's position, if the element is visible. -/
def report (r : Run) (e : Element) (length : Nat) (state : Option String) : Option Event :=
  if e.visible then some (.matched ⟨e, r.position, length, state⟩) else none

/-- The fault of an element that no longer matches. -/
def inconsistent (r : Run) (e : Element) : ParseFault := .inconsistent (r.grammar.nameOf e.target) r.position

/-- What the run does next with the pending element `next`, the others being `rest`. -/
def moveAt (r : Run) (s : Stream) (next : Pending) (rest : List Pending) : Except ParseFault Move := do
  let e ← r.grammar.elementAt next.site
  match e.target with
  | .terminal t =>
    match t.matchAt s r.position with
    | none => throw (r.inconsistent e)
    | some length => return ⟨r.report e length none, r.position + length, rest⟩
  | .state id =>
    match ← r.grammar.select s next.depth id r.position with
    | some selection =>
      if next.site = .top ∧ selection.length = 0 then
        return ⟨some (.unmatched e r.position), r.position + 1, rest⟩
      else
        let children ← r.grammar.expand id selection.production (next.depth - 1)
        return ⟨r.report e selection.length ((r.grammar.state? id).map (·.name)), r.position, children ++ rest⟩
    | none =>
      if next.site = .top then return ⟨some (.unmatched e r.position), r.position + 1, rest⟩
      else throw (r.inconsistent e)

/-- What the run does next; nothing once the stream is consumed and nothing is pending. -/
def plan (r : Run) (s : Stream) : Except ParseFault (Option Move) :=
  match r.pending with
  | next :: rest => (r.moveAt s next rest).map some
  | [] => if s.inBounds r.position then (r.moveAt s ⟨.top, r.maxDepth⟩ []).map some else .ok none

/-- The run after a move. -/
def follow (r : Run) (m : Move) : Run := { r with position := m.position, pending := m.pending }

/-- The run after a fault: it stays where it is and nothing is pending any more. -/
def fail (r : Run) : Run := { r with pending := [], phase := .failed }

variable {σ : Type}

/-- Takes one step and tells the listener. A run that has ended stays as it is and tells nothing. -/
def step (l : Listener σ) (s : Stream) (r : Run) (memory : σ) : Run × σ :=
  if r.phase ≠ .running then (r, memory)
  else match r.plan s with
    | .error fault => (r.fail, l.abort memory fault r.position)
    | .ok none => ({ r with phase := .finished }, memory)
    | .ok (some move) =>
      match move.event with
      | none => (r.follow move, memory)
      | some event =>
        match l.hear memory event with
        | (memory, none) => (r.follow move, memory)
        | (memory, some fault) => (r.fail, l.abort memory fault r.position)

/-- Takes at most `budget` steps and stops early once the run has ended. -/
def advance (l : Listener σ) (s : Stream) : (budget : Nat) → Run → σ → Run × σ
  | 0, r, memory => (r, memory)
  | budget + 1, r, memory =>
    match r.step l s memory with
    | (r, memory) => if r.phase = .running then advance l s budget r memory else (r, memory)

/-- Steps until the run ends. -/
def toEnd (l : Listener σ) (s : Stream) (r : Run) (memory : σ) : Run × σ :=
  have : Nonempty (Run × σ) := ⟨(r, memory)⟩
  Id.run <| repeatM (fun (r, memory) =>
    let next := r.step l s memory
    if next.1.phase = .running then .inl next else .inr next) (r, memory)

/-- Stepping until the end takes one step, and if the run goes on after it, steps on until the end. -/
theorem toEnd_eq (l : Listener σ) (s : Stream) (r : Run) (memory : σ) :
    r.toEnd l s memory =
      if (r.step l s memory).1.phase = .running then (r.step l s memory).1.toEnd l s (r.step l s memory).2
      else r.step l s memory := by
  have : Nonempty (Run × σ) := ⟨(r, memory)⟩
  unfold toEnd
  dsimp only
  rw [repeatM_eq_of_monadTail]
  by_cases h : (r.step l s memory).1.phase = .running
  · simp only [repeatM.body, h, if_true]
    rfl
  · simp only [repeatM.body, h, if_false]
    rfl

end Run

/-- Everything that a parse of the whole stream tells. -/
def Grammar.notes (g : Grammar) (s : Stream) (maxDepth : Nat) : Array Note :=
  ((Run.start g maxDepth).toEnd notebook s #[]).2

/-- What is recorded of a parse of the whole stream. -/
def Grammar.records (g : Grammar) (s : Stream) (maxDepth : Nat) : Array Record := (g.notes s maxDepth).map (·.record)

end LiveHighlight
