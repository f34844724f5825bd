import Mathlib.Data.List.Basic
import Mathlib.Data.List.Induction

/-!
# First occurrences

`List.eraseDups` keeps of equal elements the first.  What it keeps of a list is
found here from the end of the list: a last element is kept exactly if it has
not occurred before.  So the elements that two lists have one after the other
are those of the first, and then those of the second that are not among them.
-/

namespace Freestanding

variable {α β : Type} [BEq α] [LawfulBEq α] [BEq β] [LawfulBEq β]

theorem eraseDups_append_singleton (xs : List α) (x : α) :
    (xs ++ [x]).eraseDups = if x ∈ xs then xs.eraseDups else xs.eraseDups ++ [x] := by
  rw [List.eraseDups_append]
  by_cases hx : x ∈ xs
  · simp [List.removeAll, hx]
  · simp [List.removeAll, hx, List.eraseDups_cons]

theorem nodup_eraseDups (xs : List α) : xs.eraseDups.Nodup := by
  induction xs using List.reverseRecOn with
  | nil => exact .nil
  | append_singleton front x ih =>
      rw [eraseDups_append_singleton]
      split
      next => exact ih
      next hnew =>
          have hfresh : x ∉ front.eraseDups := by rwa [List.mem_eraseDups]
          simpa [List.nodup_append, ih] using fun y hy => ne_of_mem_of_not_mem hy hfresh

theorem mem_iff_of_eraseDups_eq {xs ys : List α} (hsame : xs.eraseDups = ys.eraseDups) (x : α) :
    x ∈ xs ↔ x ∈ ys := by
  rw [← List.mem_eraseDups, hsame, List.mem_eraseDups]

theorem eraseDups_filter (p : α → Bool) (xs : List α) :
    (xs.filter p).eraseDups = xs.eraseDups.filter p := by
  induction xs using List.reverseRecOn with
  | nil => rfl
  | append_singleton front x ih =>
      rw [List.filter_append, eraseDups_append_singleton]
      by_cases hx : p x = true
      · have hkept : [x].filter p = [x] := by simp [hx]
        rw [hkept, eraseDups_append_singleton, ih]
        simp only [List.mem_filter, hx, and_true]
        split
        next => rfl
        next => rw [List.filter_append, hkept]
      · have hdropped : [x].filter p = [] := by simp [hx]
        rw [hdropped, List.append_nil, ih]
        split
        next => rfl
        next => rw [List.filter_append, hdropped, List.append_nil]

theorem findSome?_eraseDups {γ : Type} (f : α → Option γ) (xs : List α) :
    xs.eraseDups.findSome? f = xs.findSome? f := by
  induction xs using List.reverseRecOn with
  | nil => rfl
  | append_singleton front x ih =>
      rw [eraseDups_append_singleton, List.findSome?_append]
      split
      next hx =>
          cases hfront : front.findSome? f with
          | none =>
              have hnone := List.findSome?_eq_none_iff.mp hfront x hx
              simp [ih, hfront, hnone]
          | some value => rw [ih, hfront, Option.some_or]
      next => rw [List.findSome?_append, ih]

theorem eraseDups_eq_self {xs : List α} (hnodup : xs.Nodup) : xs.eraseDups = xs := by
  induction xs using List.reverseRecOn with
  | nil => rfl
  | append_singleton front x ih =>
      obtain ⟨hfront, -, hdifferent⟩ := List.nodup_append.mp hnodup
      have hnew : x ∉ front := fun hmem => hdifferent x hmem x (List.mem_singleton_self x) rfl
      rw [eraseDups_append_singleton, if_neg hnew, ih hfront]

theorem eraseDups_map_of_injective {f : α → β} (hinjective : Function.Injective f)
    (xs : List α) : (xs.map f).eraseDups = xs.eraseDups.map f := by
  induction xs using List.reverseRecOn with
  | nil => rfl
  | append_singleton front x ih =>
      rw [List.map_append, List.map_singleton, eraseDups_append_singleton,
        eraseDups_append_singleton, ih]
      simp only [List.mem_map_of_injective hinjective]
      split
      next => rfl
      next => rw [List.map_append, List.map_singleton]

/-- The elements of the second list are kept that are not in the first one. -/
theorem eraseDups_append_filter (xs ys : List α) :
    (xs ++ ys).eraseDups = xs.eraseDups ++ ys.eraseDups.filter (· ∉ xs) := by
  have hfilter : ys.removeAll xs = ys.filter (· ∉ xs) := by simp [List.removeAll]
  rw [List.eraseDups_append, hfilter, eraseDups_filter]

/-- Repeats in a list add only repeats to what is made of it. -/
theorem eraseDups_flatMap_eraseDups (f : α → List β) (xs : List α) :
    (xs.eraseDups.flatMap f).eraseDups = (xs.flatMap f).eraseDups := by
  induction xs using List.reverseRecOn with
  | nil => rfl
  | append_singleton front x ih =>
      have hmem := mem_iff_of_eraseDups_eq ih
      rw [eraseDups_append_singleton, List.flatMap_append, List.flatMap_singleton,
        eraseDups_append_filter]
      split
      next hx =>
          have hnone : (f x).eraseDups.filter (· ∉ front.flatMap f) = [] := by
            rw [List.filter_eq_nil_iff]
            intro y hy
            simpa using ⟨x, hx, List.mem_eraseDups.mp hy⟩
          rw [hnone, List.append_nil, ih]
      next =>
          rw [List.flatMap_append, List.flatMap_singleton, eraseDups_append_filter, ih]
          simp only [hmem]

end Freestanding
