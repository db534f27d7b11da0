import LiveHighlight.Terminal.Bounds
import LiveHighlight.Text.CharClass
import LiveHighlight.Text.Stream

/-!
# Terminals

The leaves of a grammar: pure tests of a stream at a position that answer with the number of characters consumed. A run
terminal takes the longest stretch of its class that its upper limit allows, and fails when that is shorter than its lower
limit.
-/

namespace LiveHighlight

/-- The character class of a run terminal. -/
inductive CharClass where
  | digit | blank | lineBreak | tab | letter
  | among (set : String)
  deriving DecidableEq, Repr

/-- Whether the class holds the character. -/
def CharClass.accepts : CharClass → Char → Bool
  | .digit, c => isDigit c
  | .blank, c => isBlank c
  | .lineBreak, c => isLineBreak c
  | .tab, c => c == '\t'
  | .letter, c => isLetter c
  | .among set, c => set.toList.contains c

/-- A leaf of a grammar. -/
inductive Terminal where
  /-- The exact lexeme, as a token of the language. -/
  | token (lexeme : String)
  /-- The exact lexeme, as literal text. -/
  | literal (lexeme : String)
  /-- A run of one character class. -/
  | run (accepted : CharClass) (bounds : Bounds)
  /-- Matches everywhere and consumes nothing. -/
  | empty
  /-- One character that is no white space. -/
  | notBlank
  deriving DecidableEq, Repr

/-- Whether the stream reads the given characters from the position on. -/
def Stream.readsAt (s : Stream) (pos : Nat) : List Char → Bool
  | [] => true
  | c :: rest => s.charAt pos == some c && s.readsAt (pos + 1) rest

/-- The length of the stretch of accepted characters from the position on, given that the first `found` of them are known
and at most `more` are to follow. -/
def Stream.stretch (s : Stream) (accepts : Char → Bool) (pos : Nat) : (more found : Nat) → Nat
  | 0, found => found
  | more + 1, found =>
    match s.charAt (pos + found) with
    | some c => if accepts c then s.stretch accepts pos more (found + 1) else found
    | none => found

namespace Terminal

/-- The number of characters a lexeme consumes where it stands. The empty lexeme stands nowhere. -/
def matchLexeme (lexeme : String) (s : Stream) (pos : Nat) : Option Nat :=
  if lexeme.toList ≠ [] ∧ s.readsAt pos lexeme.toList then some lexeme.toList.length else none

/-- The number of characters the terminal consumes at the position, none if it does not match. -/
def matchAt : Terminal → Stream → Nat → Option Nat
  | .token lexeme, s, pos => matchLexeme lexeme s pos
  | .literal lexeme, s, pos => matchLexeme lexeme s pos
  | .run accepted bounds, s, pos =>
    let length := s.stretch accepted.accepts pos bounds.max 0
    if bounds.min ≤ length then some length else none
  | .empty, _, _ => some 0
  | .notBlank, s, pos => (s.charAt pos).bind fun c => if isWhiteSpace c then none else some 1

/-- The limits of a run terminal. -/
def bounds? : Terminal → Option Bounds
  | .run _ bounds => some bounds
  | _ => none

/-- Matches that consume nothing by their nature are not worth reporting. -/
def visibleByDefault : Terminal → Bool
  | .empty => false
  | _ => true

/-- The terminal as messages and recorded events write it. -/
def display : Terminal → String
  | .token lexeme => s!"token({lexeme})"
  | .literal lexeme => s!"literal({lexeme})"
  | .run .digit bounds => "number" ++ bounds.display
  | .run .blank bounds => "space" ++ bounds.display
  | .run .lineBreak bounds => "cr" ++ bounds.display
  | .run .tab bounds => "tab" ++ bounds.display
  | .run .letter bounds => "word" ++ bounds.display
  | .run (.among set) bounds => s!"anyof({set})" ++ (if bounds = .one then "" else bounds.display)
  | .empty => "empty"
  | .notBlank => "notblank"

end Terminal

/-- Why a terminal cannot be made. -/
inductive TerminalError where
  | bounds (error : BoundsError)
  | takesNoLimits (terminal : Terminal)
  | needsValue
  /-- A maker gives a reason of its own. -/
  | refused (reason : String)
  deriving DecidableEq, Repr

/-- The words for a refusal. -/
def TerminalError.message : TerminalError → String
  | .bounds error => error.message
  | .takesNoLimits terminal => s!"'{terminal.display}' does not take min/max"
  | .needsValue => "requires a non-empty value"
  | .refused reason => reason

/-- The terminal with the limits that are given. Only run terminals take limits; without any, every terminal stays as it
is. -/
def Terminal.limit (t : Terminal) (min max : Option Nat) : Except TerminalError Terminal :=
  if min.isNone ∧ max.isNone then .ok t
  else match t with
    | .run accepted bounds =>
      match bounds.narrow min max with
      | .ok bounds => .ok (.run accepted bounds)
      | .error error => .error (.bounds error)
    | other => .error (.takesNoLimits other)

end LiveHighlight
