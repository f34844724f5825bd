import Freestanding.Text.Blank
import Freestanding.Text.Line
import Freestanding.Text.Utf8

/-!
# Include directives

A line includes a header when it opens with `#`, `include` and a name in angle
brackets, with blank characters allowed before each of the three.  A name in
quotes is not a dependency, and neither is a directive in the middle of a line.
-/

namespace Freestanding

/-- The name that a line includes: what stands between the angle brackets, up to
the first `>`, without the blank characters around it. -/
def includedName? (line : List Char) : Option (List Char) := do
  let afterHash ← ['#'].isPrefixOf? (line.dropWhile isBlank)
  let afterWord ← "include".toList.isPrefixOf? (afterHash.dropWhile isBlank)
  let afterBracket ← ['<'].isPrefixOf? (afterWord.dropWhile isBlank)
  guard ('>' ∈ afterBracket)
  let name := trim (afterBracket.takeWhile (· ≠ '>'))
  guard (name ≠ [])
  return name

/-- The names that a text includes, each once, in the order in which they first
appear. -/
def includes (text : String) : List String :=
  ((lines text.toList).filterMap includedName?).eraseDups.map String.ofList

def dependencies (contents : List UInt8) : List String :=
  includes (Utf8.decode contents)

end Freestanding
