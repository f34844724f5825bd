/-!
# Lists of pairs as look-up tables

`List.lookup` answers with the value of the first pair whose key is the one
asked for.  Directories, alias tables and header sets are all read by it.
-/

namespace Freestanding

variable {α β : Type} [DecidableEq α] {key : α} {value : β}

theorem lookup_cons_of_ne {other : α} (hne : key ≠ other) (entries : List (α × β)) :
    ((other, value) :: entries).lookup key = entries.lookup key := by
  have hdifferent : (key == other) = false := by simpa using hne
  rw [List.lookup_cons, hdifferent]

theorem mem_of_lookup {entries : List (α × β)} (hlookup : entries.lookup key = some value) :
    (key, value) ∈ entries := by
  induction entries with
  | nil => simp at hlookup
  | cons head rest ih =>
      obtain ⟨other, old⟩ := head
      by_cases hkey : key = other
      · subst hkey
        rw [List.lookup_cons_self, Option.some.injEq] at hlookup
        rw [hlookup]
        exact List.mem_cons_self
      · rw [lookup_cons_of_ne hkey] at hlookup
        exact List.mem_cons_of_mem _ (ih hlookup)

end Freestanding
