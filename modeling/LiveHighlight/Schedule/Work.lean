import LiveHighlight.Text.Hex

/-!
# Work

What a step of work comes to, how it can fail, and the commands by which a host controls work from afar. Times and delays
are whole milliseconds.
-/

namespace LiveHighlight

/-- What a worker wants after a step. -/
inductive Step where
  /-- To run again after a delay. -/
  | again (delay : Nat)
  /-- To be discarded: the work is done. -/
  | finished
  deriving DecidableEq, Repr

/-- The kinds of failure that stop one worker and nothing else. -/
inductive RecoverableKind where
  | invalidArgument | missingValue | notImplemented
  deriving DecidableEq, Repr

/-- The words for a kind of failure. -/
def RecoverableKind.message : RecoverableKind → String
  | .invalidArgument => "invalid argument"
  | .missingValue => "missing value"
  | .notImplemented => "not implemented"

/-- How a step failed. -/
inductive WorkFault where
  /-- The worker is stopped and the scheduler goes on. -/
  | recoverable (kind : RecoverableKind) (reason : String)
  /-- The worker is stopped and the host is told. -/
  | fatal (reason : String)
  deriving DecidableEq, Repr

namespace WorkFault

/-- The words for a fault. -/
def message : WorkFault → String
  | .recoverable kind reason => s!"{kind.message}: {reason}"
  | .fatal reason => s!"fatal worker fault: {reason}"

/-- Whether the scheduler goes on after the fault. -/
def isRecoverable : WorkFault → Bool
  | .recoverable .. => true
  | .fatal _ => false

end WorkFault

/-- What a step comes to. -/
abbrev Outcome : Type := Except WorkFault Step

/-- The commands that a host sends to a work slot. -/
inductive WorkCommand where
  | play | pause | stop
  deriving DecidableEq, Repr

namespace WorkCommand

/-- All commands. -/
def all : List WorkCommand := [.play, .pause, .stop]

/-- The name of a command. -/
def name : WorkCommand → String
  | .play => "play"
  | .pause => "pause"
  | .stop => "stop"

/-- The identifier by which hosts send a command: a number of 128 bits. -/
def id : WorkCommand → Nat
  | .play => 0x1a2e5f3c7b414d8e9c0a6f2d8e41b7c3
  | .pause => 0x2b3f6a4d8c524e9fad1b7a3e9f52c8d4
  | .stop => 0x3c4a7b5e9d634fa0be2c8b4fa063d9e5

/-- The command with an identifier. -/
def ofId? (id : Nat) : Option WorkCommand := all.find? (·.id = id)

end WorkCommand

/-- Identifiers as text: 32 hexadecimal digits in groups of 8, 4, 4, 4 and 12, with hyphens between the groups. -/
def commandIdGroups : List Nat := [8, 4, 4, 4, 12]

/-- Cuts a list into groups of the given sizes. -/
def inGroups : List Nat → List Char → List (List Char)
  | [], _ => []
  | size :: sizes, text => text.take size :: inGroups sizes (text.drop size)

/-- The text of an identifier, in lower case. -/
def commandIdText (id : Nat) : String :=
  String.ofList (['-'].intercalate (inGroups commandIdGroups (hexDigits 32 id)))

/-- The identifier that a text writes, in either case. -/
def commandIdOfText? (text : String) : Option Nat :=
  let digits := text.toList.filter (· ≠ '-')
  if ['-'].intercalate (inGroups commandIdGroups digits) = text.toList ∧ digits.length = 32 then hexNumber? 0 digits
  else none

end LiveHighlight
