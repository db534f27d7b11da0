import LiveHighlight.Parse.Fault

/-!
# Lookahead

Which alternative a state takes at a position. Alternatives are tried in order and the first whose elements all match one
right after the other is taken for good: a later mismatch never reopens the choice. A reference costs one level of the
depth budget, and a state without budget matches nowhere, which ends left recursion.
-/

namespace LiveHighlight

/-- The alternative that a state takes and the number of characters that it consumes. -/
structure Selection where
  production : Nat
  length : Nat
  deriving DecidableEq, Repr

/-- The number of characters that an element consumes, given what the states it may refer to take at a position. -/
def Element.lengthAt (select : (id pos : Nat) → Except ParseFault (Option Selection)) (s : Stream) (e : Element)
    (pos : Nat) : Except ParseFault (Option Nat) :=
  match e.target with
  | .terminal t => .ok (t.matchAt s pos)
  | .state id => (select id pos).map fun selection => selection.map (·.length)

/-- The number of characters that elements consume one after the other, given how one of them matches. -/
def sequenceLength (lengthAt : Element → Nat → Except ParseFault (Option Nat)) :
    List Element → Nat → Except ParseFault (Option Nat)
  | [], _ => .ok (some 0)
  | e :: rest, pos =>
    match lengthAt e pos with
    | .error fault => .error fault
    | .ok none => .ok none
    | .ok (some length) => (sequenceLength lengthAt rest (pos + length)).map fun more => more.map (length + ·)

/-- The first production that matches at a position, the first of the list being number `index`. -/
def firstSelection (lengthAt : Element → Nat → Except ParseFault (Option Nat)) (pos : Nat) :
    (index : Nat) → List Production → Except ParseFault (Option Selection)
  | _, [] => .ok none
  | index, production :: rest =>
    match sequenceLength lengthAt production pos with
    | .error fault => .error fault
    | .ok (some length) => .ok (some ⟨index, length⟩)
    | .ok none => firstSelection lengthAt pos (index + 1) rest

namespace Grammar

/-- The alternative that a state takes at a position within a depth budget. -/
def select (g : Grammar) (s : Stream) : (depth id pos : Nat) → Except ParseFault (Option Selection)
  | 0, _, _ => .ok none
  | depth + 1, id, pos =>
    match g.state? id with
    | none => .error (.unknownState id)
    | some state => firstSelection (Element.lengthAt (g.select s depth) s) pos 0 state.productions

end Grammar

end LiveHighlight
