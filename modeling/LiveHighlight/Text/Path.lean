import LiveHighlight.Text.Cut

/-!
# File extensions

The extension of a file path: what follows the last dot of its last component. A dot that starts the component starts no
extension, and the component `..` has none.
-/

namespace LiveHighlight

/-- The extension of a file name: none for `..`, for a name without a dot and for one whose only dot leads. -/
def nameExtension (name : List Char) : Option (List Char) :=
  if name = ['.', '.'] then none
  else
    let tail := name.reverse.takeWhile (· ≠ '.')
    if tail.length + 1 < name.length then some tail.reverse else none

/-- The extension of a path. Slashes separate components; empty components and `.` are passed over, so a slash at the end
changes nothing. -/
def pathExtension (path : String) : Option String :=
  let components := (cutAt '/' path.toList).filter fun part => part ≠ [] ∧ part ≠ ['.']
  (components.getLast?.bind nameExtension).map String.ofList

example : pathExtension "src/a.tar.GZ/./" = some "GZ" := by decide +kernel
example : pathExtension "a." = some "" := by decide +kernel
example : pathExtension ".bashrc" = none := by decide +kernel

end LiveHighlight
