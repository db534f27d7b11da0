import LiveHighlight.Directory
import LiveHighlight.Terminal.Basic

/-!
# Terminal classes

Grammar descriptions name terminals by class. A registry resolves the names when a grammar is built, so an unknown class
fails construction.
-/

namespace LiveHighlight

/-- Makes a terminal from the value an element gives, or says why it cannot. -/
abbrev TerminalMaker : Type := Option String → Except TerminalError Terminal

namespace TerminalMaker

/-- Makes what `build` gives of a value that is present and not empty. -/
def ofLexeme (build : String → Terminal) : TerminalMaker
  | some value => if value = "" then .error .needsValue else .ok (build value)
  | none => .error .needsValue

/-- Makes the same terminal whatever the value. -/
def constant (t : Terminal) : TerminalMaker := fun _ => .ok t

/-- The makers of the text terminal classes by name. -/
def standard : List (String × TerminalMaker) :=
  [("token", ofLexeme .token), ("literal", ofLexeme .literal), ("number", constant (.run .digit .run)),
   ("space", constant (.run .blank .run)), ("cr", constant (.run .lineBreak .run)), ("tab", constant (.run .tab .run)),
   ("word", constant (.run .letter .run)), ("empty", constant .empty),
   ("anyof", ofLexeme fun set => .run (.among set) .one), ("notblank", constant .notBlank)]

end TerminalMaker

/-- Terminal class names and their makers. -/
abbrev TerminalRegistry : Type := Directory TerminalMaker

namespace TerminalRegistry

/-- The registry of the text terminal classes. -/
def standard : TerminalRegistry := ⟨TerminalMaker.standard⟩

/-- Registers a class or replaces its maker, and says whether there was one before. -/
def register (r : TerminalRegistry) (name : String) (maker : TerminalMaker) : TerminalRegistry × Bool :=
  (Directory.insert r name maker, Directory.contains r name)

end TerminalRegistry

end LiveHighlight
