import LiveHighlight.Grammar.Error
import LiveHighlight.Text.Path
import LiveHighlight.Directory

/-!
# Languages

One shared grammar for each language name, found by name, by file extension or by path. A name is given once and for all; an
extension goes over to the latest language that claims it.
-/

namespace LiveHighlight

/-- Lower case for the letters of ASCII; other characters stay. -/
def asciiLower (c : Char) : Char := if 'A' ≤ c ∧ c ≤ 'Z' then Char.ofNat (c.toNat + 32) else c

/-- How extensions are compared: without leading dots and without regard to ASCII case. -/
def normalExtension (extension : String) : String :=
  String.ofList ((extension.toList.dropWhile (· = '.')).map asciiLower)

/-- The languages that are registered. -/
structure Languages where
  grammars : Directory Grammar
  /-- The language of each extension in normal form. -/
  extensions : Directory String
  deriving DecidableEq, Repr, Inhabited

namespace Languages

/-- No languages. -/
def empty : Languages := ⟨.empty, .empty⟩

/-- The grammar of the language with the given name. -/
def get? (l : Languages) (name : String) : Option Grammar := l.grammars.get? name

/-- The grammar of the language that claimed the extension last. -/
def ofExtension? (l : Languages) (extension : String) : Option Grammar :=
  (l.extensions.get? (normalExtension extension)).bind l.get?

/-- The grammar of the language that claimed the extension of a path. -/
def ofPath? (l : Languages) (path : String) : Option Grammar := (pathExtension path).bind l.ofExtension?

/-- The language names in order. -/
def names (l : Languages) : List String := l.grammars.sortedNames

/-- The number of languages. -/
def size (l : Languages) : Nat := l.grammars.size

/-- Registers a grammar under its own name for some extensions. A name that is taken is refused before anything changes. -/
def register (l : Languages) (g : Grammar) (extensions : List String) : Except GrammarError Languages :=
  if l.grammars.contains g.name then .error (.duplicateGrammar g.name)
  else .ok
    { grammars := l.grammars.insert g.name g
      extensions := extensions.foldl (fun known e => known.insert (normalExtension e) g.name) l.extensions }

end Languages

end LiveHighlight
