/-!
# Similarity of words

The Jaro similarity of two words, between 0 and 1.  Two equal characters match
when they stand no further apart than half the length of the longer word, less
one.  The similarity is the mean of three shares: the matching characters of
either word, and those matches that keep their order.
-/

namespace Freestanding

/-- Marks the first unmarked occurrence of a character from `low` on and before
`high`, when the word's first character stands at `position`. -/
def markFrom (position low high : Nat) (c : Char) :
    List (Char × Bool) → Option (List (Char × Bool))
  | [] => none
  | (other, marked) :: rest =>
    if other = c ∧ ¬ marked ∧ low ≤ position ∧ position < high then some ((other, true) :: rest)
    else (markFrom (position + 1) low high c rest).map ((other, marked) :: ·)

/-- The characters of a word, from `position` on, that match one of another
word, and the other word with those that they match marked. -/
def matchFrom (distance position : Nat) :
    List Char → List (Char × Bool) → List Char × List (Char × Bool)
  | [], marks => ([], marks)
  | c :: cs, marks =>
    match markFrom 0 (position - distance) (position + distance + 1) c marks with
    | none => matchFrom distance (position + 1) cs marks
    | some marks =>
      let (matched, marks) := matchFrom distance (position + 1) cs marks
      (c :: matched, marks)

def jaroSimilarity (a b : List Char) : Float :=
  if a = [] ∧ b = [] then 1
  else
    let distance := max a.length b.length / 2 - 1
    let (matched, marks) := matchFrom distance 0 a (b.map (·, false))
    if matched = [] then 0
    else
      let others := (marks.filter (·.2)).map Prod.fst
      let moved := (matched.zip others).countP fun pair => pair.1 ≠ pair.2
      let share (part whole : Nat) := Float.ofNat part / Float.ofNat whole
      (share matched.length a.length + share matched.length b.length +
        share (matched.length - moved / 2) matched.length) / 3

end Freestanding
