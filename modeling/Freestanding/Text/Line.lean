import Freestanding.Text.Pieces

/-!
# Lines of a text

A line feed ends a line, and one carriage return right before it belongs to the
ending.  What follows the last line feed is a line only if it is not empty; it
has no ending, so it keeps a carriage return.
-/

namespace Freestanding

def dropFinalReturn : List Char → List Char
  | [] => []
  | c :: cs => if c = '\r' ∧ cs = [] then [] else c :: dropFinalReturn cs

/-- The lines that the pieces between line feeds stand for. -/
def linesOfPieces : List (List Char) → List (List Char)
  | [] => []
  | [last] => if last = [] then [] else [last]
  | piece :: next :: rest => dropFinalReturn piece :: linesOfPieces (next :: rest)

def lines (text : List Char) : List (List Char) :=
  linesOfPieces (pieces '\n' text)

theorem dropFinalReturn_append_return (cs : List Char) : dropFinalReturn (cs ++ ['\r']) = cs := by
  induction cs with
  | nil => rfl
  | cons c cs ih => simp [dropFinalReturn, ih]

theorem dropFinalReturn_of_getLast?_ne {cs : List Char} (hlast : cs.getLast? ≠ some '\r') :
    dropFinalReturn cs = cs := by
  induction cs with
  | nil => rfl
  | cons c cs ih =>
      cases cs with
      | nil => simpa [dropFinalReturn] using hlast
      | cons d ds =>
          rw [dropFinalReturn, ih (by simpa using hlast)]
          simp

end Freestanding
