import Freestanding.Include
import Mathlib.Data.List.Perm.Subperm
import Mathlib.Data.Option.Basic

/-!
# Include directives as a grammar

`includedName?` reads a line from left to right.  What it accepts is described
here by the whole line at once: blanks, `#`, blanks, `include`, blanks, and what
stands between the angle brackets, with anything behind them.

The description shows at a glance what does not matter to the included name: a
carriage return at the end of the line does not, so the names that a text
includes can be read off its pieces between line feeds.
-/

namespace Freestanding

theorem dropWhile_eq_iff {α : Type} {p : α → Bool} {xs ys : List α} :
    xs.dropWhile p = ys ↔
      (∃ front, (∀ x ∈ front, p x = true) ∧ xs = front ++ ys) ∧ ys.head?.all (! p ·) = true := by
  constructor
  · rintro rfl
    refine ⟨⟨xs.takeWhile p, ?_, (List.takeWhile_append_dropWhile).symm⟩, ?_⟩
    · exact List.all_eq_true.mp List.all_takeWhile
    · have hhead := List.head?_dropWhile_not p xs
      cases hfirst : (xs.dropWhile p).head? with
      | none => rfl
      | some x => simpa [hfirst] using hhead
  · rintro ⟨⟨front, hfront, rfl⟩, hhead⟩
    rw [List.dropWhile_append_of_pos hfront]
    cases ys with
    | nil => rfl
    | cons y ys => rw [List.dropWhile_cons_of_neg (by simpa using hhead)]

theorem dropWhile_eq_cons_iff {α : Type} {p : α → Bool} {xs ys : List α} {y : α} :
    xs.dropWhile p = y :: ys ↔
      p y = false ∧ ∃ front, (∀ x ∈ front, p x = true) ∧ xs = front ++ y :: ys := by
  rw [dropWhile_eq_iff, and_comm]
  simp

theorem takeWhile_append_of_neg {α : Type} {p : α → Bool} {front rest : List α} {y : α}
    (hfront : ∀ x ∈ front, p x = true) (hy : p y = false) :
    (front ++ y :: rest).takeWhile p = front := by
  rw [List.takeWhile_append_of_pos hfront, List.takeWhile_cons_of_neg (by simp [hy])]
  simp

theorem takeWhile_ne_of_not_mem {α : Type} [DecidableEq α] {front rest : List α} {y : α}
    (hfront : y ∉ front) : (front ++ y :: rest).takeWhile (· ≠ y) = front := by
  refine takeWhile_append_of_neg ?_ (by simp)
  intro x hx
  simpa using fun heq : x = y => hfront (heq ▸ hx)

/-- Whether a line includes what stands between its angle brackets. -/
def IsDirective (line inside : List Char) : Prop :=
  ∃ before between behind rest,
    (∀ c ∈ before, isBlank c = true) ∧ (∀ c ∈ between, isBlank c = true) ∧
      (∀ c ∈ behind, isBlank c = true) ∧ '>' ∉ inside ∧
      line = before ++ '#' :: (between ++ "include".toList ++
        (behind ++ '<' :: (inside ++ '>' :: rest)))

theorem includedName?_eq_some_iff {line name : List Char} :
    includedName? line = some name ↔
      ∃ inside, IsDirective line inside ∧ trim inside = name ∧ name ≠ [] := by
  have hword : "include".toList = 'i' :: "nclude".toList := rfl
  unfold includedName? IsDirective
  simp only [Option.bind_eq_bind, Option.bind_eq_some_iff, Option.guard_eq_some',
    Option.pure_def, Option.some.injEq, exists_const,
    List.isPrefixOf?_eq_some_iff_append_eq, hword, List.cons_append, List.nil_append]
  constructor
  · rintro ⟨afterHash, hhash, afterWord, hinclude, afterBracket, hbracket, hmem, hname, rfl⟩
    obtain ⟨-, before, hbefore, rfl⟩ := dropWhile_eq_cons_iff.mp hhash.symm
    obtain ⟨-, between, hbetween, rfl⟩ := dropWhile_eq_cons_iff.mp hinclude.symm
    obtain ⟨-, behind, hbehind, rfl⟩ := dropWhile_eq_cons_iff.mp hbracket.symm
    obtain ⟨inside, rest, rfl, hinside⟩ := List.eq_append_cons_of_mem hmem
    rw [takeWhile_ne_of_not_mem hinside] at hname ⊢
    exact ⟨inside, ⟨before, between, behind, rest, hbefore, hbetween, hbehind, hinside,
      by simp⟩, rfl, hname⟩
  · rintro ⟨inside, ⟨before, between, behind, rest, hbefore, hbetween, hbehind, hinside, rfl⟩,
      rfl, hname⟩
    refine ⟨_, (dropWhile_eq_cons_iff.mpr ⟨by decide, before, hbefore, rfl⟩).symm,
      behind ++ '<' :: (inside ++ '>' :: rest), ?_, inside ++ '>' :: rest, ?_, by simp, ?_⟩
    · refine (dropWhile_eq_cons_iff.mpr ⟨by decide, between, hbetween, ?_⟩).symm
      simp
    · exact (dropWhile_eq_cons_iff.mpr ⟨by decide, behind, hbehind, rfl⟩).symm
    · rw [takeWhile_ne_of_not_mem hinside]
      exact ⟨hname, rfl⟩

theorem isDirective_append_return {line inside : List Char} :
    IsDirective (line ++ ['\r']) inside ↔ IsDirective line inside := by
  constructor
  · rintro ⟨before, between, behind, rest, hbefore, hbetween, hbehind, hinside, hline⟩
    rcases List.eq_nil_or_concat rest with rfl | ⟨front, last, rfl⟩
    · have hlast := congrArg List.getLast? hline
      simp [List.getLast?_append, List.getLast?_cons] at hlast
    · rw [List.concat_eq_append] at hline
      have happend : line ++ ['\r'] =
          (before ++ '#' :: (between ++ "include".toList ++
            (behind ++ '<' :: (inside ++ '>' :: front)))) ++ [last] := by
        rw [hline]
        simp
      exact ⟨before, between, behind, front, hbefore, hbetween, hbehind, hinside,
        (List.append_inj' happend rfl).1⟩
  · rintro ⟨before, between, behind, rest, hbefore, hbetween, hbehind, hinside, rfl⟩
    exact ⟨before, between, behind, rest ++ ['\r'], hbefore, hbetween, hbehind, hinside,
      by simp⟩

theorem includedName?_append_return (line : List Char) :
    includedName? (line ++ ['\r']) = includedName? line := by
  apply Option.ext
  intro name
  rw [includedName?_eq_some_iff, includedName?_eq_some_iff]
  simp only [isDirective_append_return]

theorem includedName?_dropFinalReturn (line : List Char) :
    includedName? (dropFinalReturn line) = includedName? line := by
  rcases List.eq_nil_or_concat line with rfl | ⟨front, last, rfl⟩
  · rfl
  · rw [List.concat_eq_append]
    by_cases hlast : last = '\r'
    · subst hlast
      rw [dropFinalReturn_append_return, includedName?_append_return]
    · rw [dropFinalReturn_of_getLast?_ne (by simp [hlast])]

/-- The names that a text includes can be read off its pieces. -/
theorem filterMap_linesOfPieces (parts : List (List Char)) :
    (linesOfPieces parts).filterMap includedName? = parts.filterMap includedName? := by
  have hempty : includedName? [] = none := rfl
  induction parts with
  | nil => rfl
  | cons part rest ih =>
      cases rest with
      | nil =>
          unfold linesOfPieces
          split
          next hpart => simp [hpart, hempty]
          next => rfl
      | cons next rest =>
          unfold linesOfPieces
          rw [List.filterMap_cons, List.filterMap_cons, includedName?_dropFinalReturn, ih]

end Freestanding
