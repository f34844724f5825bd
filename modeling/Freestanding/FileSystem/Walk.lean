import Freestanding.FileSystem.Node

/-!
# Walking a tree

`Node.descendants` lists everything below a node with its location: each directory's
entries in the order of their names, and a directory's entry right before what
is in it.  Links are listed and not entered.

Names are compared by their code points, which is the order of their UTF-8
bytes.
-/

namespace Freestanding

section Sorting

variable {α : Type}

/-- Puts an entry in front of the first one whose name is not smaller. -/
def insertByName (entry : Name × α) : List (Name × α) → List (Name × α)
  | [] => [entry]
  | head :: rest =>
    if head.1.text < entry.1.text then head :: insertByName entry rest
    else entry :: head :: rest

def sortByName : List (Name × α) → List (Name × α)
  | [] => []
  | entry :: rest => insertByName entry (sortByName rest)

theorem perm_insertByName (entry : Name × α) (entries : List (Name × α)) :
    (insertByName entry entries).Perm (entry :: entries) := by
  induction entries with
  | nil => exact .refl _
  | cons head rest ih =>
      by_cases hless : head.1.text < entry.1.text
      · rw [insertByName, if_pos hless]
        exact (ih.cons head).trans (.swap ..)
      · rw [insertByName, if_neg hless]

theorem perm_sortByName (entries : List (Name × α)) : (sortByName entries).Perm entries := by
  induction entries with
  | nil => exact .refl _
  | cons entry rest ih => exact (perm_insertByName entry _).trans (ih.cons entry)

end Sorting

namespace Node

mutual

/-- Everything below a node, in walking order. -/
def descendants : Node → List (Location × Node)
  | .file _ => []
  | .link _ => []
  | .directory entries =>
    (sortByName (descendantsEach entries)).flatMap fun entry =>
      entry.2.map fun found => (entry.1 :: found.1, found.2)

/-- The entries of a directory, each as the list of itself and everything
below it. -/
def descendantsEach : List (Name × Node) → List (Name × List (Location × Node))
  | [] => []
  | (name, node) :: rest => (name, ([], node) :: node.descendants) :: descendantsEach rest

end

theorem descendantsEach_eq_map (entries : List (Name × Node)) :
    descendantsEach entries =
      entries.map fun entry => (entry.1, ([], entry.2) :: entry.2.descendants) := by
  induction entries with
  | nil => rfl
  | cons entry rest ih => rw [descendantsEach, ih, List.map_cons]

end Node

end Freestanding
