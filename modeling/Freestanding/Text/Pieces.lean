/-!
# Pieces between separators

`pieces separator xs` cuts a list at every occurrence of a separator.  Nothing
is lost: joining the pieces with the separator gives the list back, and no
piece holds the separator.  Lines, path segments and the lines of a byte string
are all read through this one cut.
-/

namespace Freestanding

variable {α : Type} [DecidableEq α]

/-- The pieces of a list between the occurrences of a separator, one more than
there are occurrences. -/
def pieces (separator : α) (xs : List α) : List (List α) :=
  xs.foldr (fun x rest => if x = separator then [] :: rest else rest.modifyHead (x :: ·)) [[]]

variable {separator : α}

@[simp] theorem pieces_nil : pieces separator ([] : List α) = [[]] := rfl

@[simp] theorem pieces_cons_self (xs : List α) :
    pieces separator (separator :: xs) = [] :: pieces separator xs := by
  simp [pieces]

theorem pieces_cons_of_ne {x : α} (hne : x ≠ separator) (xs : List α) :
    pieces separator (x :: xs) = (pieces separator xs).modifyHead (x :: ·) := by
  simp [pieces, hne]

theorem pieces_ne_nil (separator : α) (xs : List α) : pieces separator xs ≠ [] := by
  induction xs with
  | nil => simp
  | cons x xs ih =>
      by_cases hx : x = separator
      · simp [hx]
      · simp [pieces_cons_of_ne hx, ih]

theorem intercalate_pieces (xs : List α) :
    [separator].intercalate (pieces separator xs) = xs := by
  induction xs with
  | nil => rfl
  | cons x xs ih =>
      obtain ⟨piece, rest, hpieces⟩ := List.exists_cons_of_ne_nil (pieces_ne_nil _ xs)
      rw [hpieces] at ih
      by_cases hx : x = separator
      · subst hx
        rw [pieces_cons_self, hpieces]
        simpa [List.intercalate] using ih
      · rw [pieces_cons_of_ne hx, hpieces]
        cases rest <;> simpa [List.intercalate] using ih

theorem eq_of_pieces_eq (separator : α) {xs ys : List α}
    (hpieces : pieces separator xs = pieces separator ys) : xs = ys := by
  calc
    xs = [separator].intercalate (pieces separator xs) := (intercalate_pieces xs).symm
    _ = [separator].intercalate (pieces separator ys) := by rw [hpieces]
    _ = ys := intercalate_pieces ys

theorem not_mem_of_mem_pieces {xs piece : List α} (hpiece : piece ∈ pieces separator xs) :
    separator ∉ piece := by
  induction xs generalizing piece with
  | nil =>
      rw [pieces_nil, List.mem_singleton] at hpiece
      simp [hpiece]
  | cons x xs ih =>
      by_cases hx : x = separator
      · subst hx
        rw [pieces_cons_self, List.mem_cons] at hpiece
        rcases hpiece with rfl | hpiece
        · simp
        · exact ih hpiece
      · rw [pieces_cons_of_ne hx] at hpiece
        obtain ⟨first, rest, hpieces⟩ := List.exists_cons_of_ne_nil (pieces_ne_nil _ xs)
        rw [hpieces] at hpiece ih
        rw [List.modifyHead_cons, List.mem_cons] at hpiece
        rcases hpiece with rfl | hpiece
        · have hfirst : separator ∉ first := ih List.mem_cons_self
          simp [hfirst, Ne.symm hx]
        · exact ih (List.mem_cons_of_mem _ hpiece)

theorem pieces_append_cons (xs ys : List α) :
    pieces separator (xs ++ separator :: ys) = pieces separator xs ++ pieces separator ys := by
  induction xs with
  | nil => simp
  | cons x xs ih =>
      by_cases hx : x = separator
      · subst hx
        simp [ih]
      · obtain ⟨piece, rest, hpieces⟩ := List.exists_cons_of_ne_nil (pieces_ne_nil separator xs)
        simp [pieces_cons_of_ne hx, ih, hpieces]

theorem pieces_append_of_not_mem {front : List α} (hfront : separator ∉ front) (xs : List α) :
    pieces separator (front ++ xs) = (pieces separator xs).modifyHead (front ++ ·) := by
  obtain ⟨piece, rest, hpieces⟩ := List.exists_cons_of_ne_nil (pieces_ne_nil separator xs)
  induction front with
  | nil => simp [hpieces]
  | cons x front ih =>
      rw [List.mem_cons, not_or] at hfront
      rw [List.cons_append, pieces_cons_of_ne (Ne.symm hfront.1), ih hfront.2, hpieces]
      rfl

theorem pieces_of_not_mem {xs : List α} (hxs : separator ∉ xs) : pieces separator xs = [xs] := by
  have happend := pieces_append_of_not_mem hxs []
  simpa using happend

/-- Pieces without separators are found again after joining them. -/
theorem pieces_intercalate {parts : List (List α)} (hne : parts ≠ [])
    (hparts : ∀ part ∈ parts, separator ∉ part) :
    pieces separator ([separator].intercalate parts) = parts := by
  induction parts with
  | nil => exact absurd rfl hne
  | cons part parts ih =>
      obtain ⟨hpart, hrest⟩ := List.forall_mem_cons.mp hparts
      cases parts with
      | nil => simpa [List.intercalate] using pieces_of_not_mem hpart
      | cons next parts =>
          have hjoined : [separator].intercalate (part :: next :: parts) =
              part ++ separator :: [separator].intercalate (next :: parts) := by
            simp [List.intercalate]
          rw [hjoined, pieces_append_cons, pieces_of_not_mem hpart,
            ih (List.cons_ne_nil _ _) hrest]
          rfl

end Freestanding
