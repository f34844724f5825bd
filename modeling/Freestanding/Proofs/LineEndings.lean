import Freestanding.Proofs.SettingLines

/-!
# Line endings

A carriage return put in front of every line feed stands at the end of each
piece between line feeds but the last one.  There it neither makes nor breaks an
include directive, and it neither makes nor breaks a definition; and of a
definition that is replaced it is among what stays.

So it makes no difference to the names that a text includes, and to configure a
header comes to the same before and after.
-/

namespace Freestanding

section Marks

variable {α β : Type} {mark separator : α} {parts : List (List α)}

/-- Pieces with a mark behind each of them but the last one. -/
def markEnds (mark : α) : List (List α) → List (List α)
  | [] => []
  | [last] => [last]
  | piece :: next :: rest => (piece ++ [mark]) :: markEnds mark (next :: rest)

theorem markEnds_cons (piece : List α) (hparts : parts ≠ []) :
    markEnds mark (piece :: parts) = (piece ++ [mark]) :: markEnds mark parts := by
  obtain ⟨next, rest, rfl⟩ := List.exists_cons_of_ne_nil hparts
  rfl

theorem modifyHead_cons_markEnds (x : α) (parts : List (List α)) :
    (markEnds mark parts).modifyHead (x :: ·) = markEnds mark (parts.modifyHead (x :: ·)) := by
  match parts with
  | [] => rfl
  | [last] => rfl
  | piece :: next :: rest => rfl

theorem filterMap_markEnds {f : List α → Option β} (hf : ∀ piece, f (piece ++ [mark]) = f piece)
    (parts : List (List α)) : (markEnds mark parts).filterMap f = parts.filterMap f := by
  fun_induction markEnds mark parts with
  | case1 => rfl
  | case2 last => rfl
  | case3 piece next rest ih => rw [List.filterMap_cons, List.filterMap_cons, hf, ih]

theorem map_markEnds {f : List α → List α} (hf : ∀ piece, f (piece ++ [mark]) = f piece ++ [mark])
    (parts : List (List α)) : (markEnds mark parts).map f = markEnds mark (parts.map f) := by
  fun_induction markEnds mark parts with
  | case1 => rfl
  | case2 last => rfl
  | case3 piece next rest ih =>
      rw [List.map_cons, List.map_cons, ih, hf, markEnds_cons _ (by simp)]

variable [DecidableEq α]

/-- A list with a mark in front of every separator. -/
def withMarks (mark separator : α) (xs : List α) : List α :=
  xs.flatMap fun x => if x = separator then [mark, separator] else [x]

theorem pieces_withMarks (hmark : mark ≠ separator) (xs : List α) :
    pieces separator (withMarks mark separator xs) = markEnds mark (pieces separator xs) := by
  induction xs with
  | nil => rfl
  | cons x xs ih =>
      by_cases hx : x = separator
      · have hmarked : withMarks mark separator (x :: xs) =
            mark :: separator :: withMarks mark separator xs := by
          simp [withMarks, hx]
        rw [hmarked, pieces_cons_of_ne hmark, pieces_cons_self, ih, hx, pieces_cons_self,
          markEnds_cons [] (pieces_ne_nil separator xs)]
        rfl
      · have hkept : withMarks mark separator (x :: xs) = x :: withMarks mark separator xs := by
          simp [withMarks, hx]
        rw [hkept, pieces_cons_of_ne hx, ih, modifyHead_cons_markEnds, pieces_cons_of_ne hx]

end Marks

/-! ### Settings -/

namespace Setting

variable {setting : Setting}

theorem IsProper.applyToLine_append_return (hproper : setting.IsProper) (line : List UInt8) :
    setting.applyToLine (line ++ [0x0D]) = setting.applyToLine line ++ [0x0D] := by
  have hdrop : (line ++ [0x0D]).dropWhile (· ≠ 0x0D) = line.dropWhile (· ≠ 0x0D) ++ [0x0D] := by
    rw [List.dropWhile_append]
    split
    next hempty => rw [List.isEmpty_iff.mp hempty]; rfl
    next => rfl
  unfold applyToLine
  rw [hproper.isSome_afterName?_append line (by decide), hdrop]
  split
  next => rw [List.append_assoc]
  next => rfl

/-- To give a macro its value comes to the same whichever way lines end. -/
theorem IsProper.apply_withMarks (hproper : setting.IsProper) (contents : List UInt8) :
    setting.apply (withMarks 0x0D 0x0A contents) =
      withMarks 0x0D 0x0A (setting.apply contents) := by
  apply eq_of_pieces_eq 0x0A
  calc
    pieces 0x0A (setting.apply (withMarks 0x0D 0x0A contents))
      = (pieces 0x0A (withMarks 0x0D 0x0A contents)).map setting.applyToLine :=
          hproper.pieces_apply _
    _ = (markEnds 0x0D (pieces 0x0A contents)).map setting.applyToLine := by
          rw [pieces_withMarks (by decide)]
    _ = markEnds 0x0D ((pieces 0x0A contents).map setting.applyToLine) :=
          map_markEnds hproper.applyToLine_append_return _
    _ = markEnds 0x0D (pieces 0x0A (setting.apply contents)) := by
          rw [hproper.pieces_apply]
    _ = pieces 0x0A (withMarks 0x0D 0x0A (setting.apply contents)) :=
          (pieces_withMarks (by decide) _).symm

end Setting

/-! ### Texts and headers with carriage returns -/

theorem includes_withMarks (text : String) :
    includes (String.ofList (withMarks '\r' '\n' text.toList)) = includes text := by
  unfold includes lines
  rw [String.toList_ofList, filterMap_linesOfPieces, filterMap_linesOfPieces,
    pieces_withMarks (by decide), filterMap_markEnds includedName?_append_return]

/-- It does not matter which way lines end.  With a carriage return in front of
every line feed, whether there has been one before or not, a text includes the
same names, and to configure a header gives what the configured header is with
the carriage returns put in afterwards. -/
theorem includes_configure_withMarks (text : String) (contents : List UInt8) :
    includes (String.ofList (withMarks '\r' '\n' text.toList)) = includes text ∧
      configure (withMarks 0x0D 0x0A contents) = withMarks 0x0D 0x0A (configure contents) := by
  refine ⟨includes_withMarks text, ?_⟩
  rw [configure, Setting.isProper_visibility.apply_withMarks,
    Setting.isProper_inlineVersion.apply_withMarks, configure]

end Freestanding
