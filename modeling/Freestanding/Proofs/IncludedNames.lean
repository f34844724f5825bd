import Freestanding.Proofs.Directives
import Freestanding.Proofs.FirstOccurrences

/-!
# The names that a text includes

A text falls into lines in exactly one way, which `HasLines` describes without
cutting it: a line feed ends a line, and a carriage return in front of it belongs
to the ending.  The names that a text includes are those for which one of its
lines is a directive.  Each name stands once, and the names stand in the order of
the first lines that include them.
-/

namespace Freestanding

/-! ### Lines -/

/-- How a text falls into lines. -/
inductive HasLines : List Char → List (List Char) → Prop
  | nil : HasLines [] []
  /-- The last line of a text need not have an ending. -/
  | last {line : List Char} (hline : '\n' ∉ line) (hnonempty : line ≠ []) :
      HasLines line [line]
  | feed {line rest : List Char} {parts : List (List Char)} (hline : '\n' ∉ line)
      (hreturn : line.getLast? ≠ some '\r') (hrest : HasLines rest parts) :
      HasLines (line ++ '\n' :: rest) (line :: parts)
  | returnFeed {line rest : List Char} {parts : List (List Char)} (hline : '\n' ∉ line)
      (hrest : HasLines rest parts) :
      HasLines (line ++ '\r' :: '\n' :: rest) (line :: parts)

theorem lines_of_not_mem {line : List Char} (hline : '\n' ∉ line) (hnonempty : line ≠ []) :
    lines line = [line] := by
  rw [lines, pieces_of_not_mem hline, linesOfPieces, if_neg hnonempty]

theorem linesOfPieces_append (parts : List (List Char)) {others : List (List Char)}
    (hothers : others ≠ []) :
    linesOfPieces (parts ++ others) = parts.map dropFinalReturn ++ linesOfPieces others := by
  induction parts with
  | nil => rfl
  | cons part rest ih =>
      obtain ⟨next, more, hnext⟩ : ∃ next more, rest ++ others = next :: more :=
        List.exists_cons_of_ne_nil (by simp [hothers])
      rw [List.cons_append, hnext, linesOfPieces, ← hnext, ih, List.map_cons, List.cons_append]

theorem lines_append_feed (text rest : List Char) :
    lines (text ++ '\n' :: rest) = (pieces '\n' text).map dropFinalReturn ++ lines rest := by
  rw [lines, pieces_append_cons, linesOfPieces_append _ (pieces_ne_nil '\n' rest), lines]

theorem lines_append_newline {line : List Char} (hline : '\n' ∉ line) (rest : List Char) :
    lines (line ++ '\n' :: rest) = dropFinalReturn line :: lines rest := by
  rw [lines_append_feed, pieces_of_not_mem hline, List.map_singleton, List.singleton_append]

theorem HasLines.cons {line rest : List Char} {parts : List (List Char)}
    (hline : '\n' ∉ line) (hrest : HasLines rest parts) :
    HasLines (line ++ '\n' :: rest) (dropFinalReturn line :: parts) := by
  rcases List.eq_nil_or_concat line with rfl | ⟨front, final, rfl⟩
  · exact .feed hline (by simp) hrest
  · rw [List.concat_eq_append] at hline ⊢
    by_cases hfinal : final = '\r'
    · subst hfinal
      have hfront : '\n' ∉ front := fun hmem => hline (List.mem_append_left _ hmem)
      rw [dropFinalReturn_append_return, List.append_assoc, List.singleton_append]
      exact .returnFeed hfront hrest
    · have hreturn : (front ++ [final]).getLast? ≠ some '\r' := by simp [hfinal]
      rw [dropFinalReturn_of_getLast?_ne hreturn]
      exact .feed hline hreturn hrest

theorem hasLines_linesOfPieces {parts : List (List Char)} (hparts : ∀ part ∈ parts, '\n' ∉ part) :
    HasLines (['\n'].intercalate parts) (linesOfPieces parts) := by
  fun_induction linesOfPieces parts with
  | case1 => exact .nil
  | case2 => exact .nil
  | case3 line hnonempty =>
      simpa using HasLines.last (hparts line List.mem_cons_self) hnonempty
  | case4 line next rest ih =>
      have hrest := ih fun part hpart => hparts part (List.mem_cons_of_mem _ hpart)
      rw [List.intercalate_cons_cons, List.append_assoc, List.singleton_append]
      exact .cons (hparts line List.mem_cons_self) hrest

theorem hasLines_iff {text : List Char} {parts : List (List Char)} :
    HasLines text parts ↔ parts = lines text := by
  constructor
  · intro hparts
    induction hparts with
    | nil => rfl
    | last hline hnonempty => exact (lines_of_not_mem hline hnonempty).symm
    | feed hline hreturn _ ih =>
        rw [lines_append_newline hline, dropFinalReturn_of_getLast?_ne hreturn, ih]
    | @returnFeed line rest parts hline _ ih =>
        have hreturn : '\n' ∉ line ++ ['\r'] := by simp [hline]
        have hlines := lines_append_newline hreturn rest
        rw [dropFinalReturn_append_return, List.append_assoc, List.singleton_append] at hlines
        rw [hlines, ih]
  · rintro rfl
    have hpieces : HasLines (['\n'].intercalate (pieces '\n' text)) (lines text) :=
      hasLines_linesOfPieces fun part => not_mem_of_mem_pieces
    rwa [intercalate_pieces] at hpieces

/-! ### The order of first lines -/

/-- In a list whose elements have increasing ranks, one element stands before
another exactly if its rank is smaller. -/
theorem pair_sublist_iff_of_pairwise {α : Type} {rank : α → Nat} {xs : List α}
    (hranks : xs.Pairwise fun x y => rank x < rank y) (a b : α) :
    [a, b].Sublist xs ↔ a ∈ xs ∧ b ∈ xs ∧ rank a < rank b := by
  constructor
  · intro hsublist
    have hpair : [a, b].Pairwise fun x y => rank x < rank y := hranks.sublist hsublist
    exact ⟨hsublist.mem (by simp), hsublist.mem (by simp), by simpa using hpair⟩
  · rintro ⟨ha, hb, hless⟩
    induction xs with
    | nil => simp at ha
    | cons x xs ih =>
        obtain ⟨hfirst, hrest⟩ := List.pairwise_cons.mp hranks
        rcases List.mem_cons.mp ha with rfl | htail
        · rcases List.mem_cons.mp hb with rfl | hbehind
          · omega
          · exact (List.singleton_sublist.mpr hbehind).cons_cons a
        · rcases List.mem_cons.mp hb with rfl | hbehind
          · have hgreater := hfirst a htail
            omega
          · exact (ih hrest htail hbehind).cons x

/-- Without later repeats, the values that the elements of a list have stand in
the order of the first elements that have them. -/
theorem pairwise_findIdx_eraseDups_filterMap {α β : Type} [DecidableEq β] (value? : α → Option β)
    (xs : List α) :
    (xs.filterMap value?).eraseDups.Pairwise fun a b =>
      xs.findIdx (value? · = some a) < xs.findIdx (value? · = some b) := by
  induction xs using List.reverseRecOn with
  | nil => simp
  | append_singleton front x ih =>
      have hfound (a : β) : a ∈ (front.filterMap value?).eraseDups ↔
          front.findIdx (value? · = some a) < front.length := by
        simp [List.findIdx_lt_length]
      have hkept {a : β} (ha : a ∈ (front.filterMap value?).eraseDups) :
          (front ++ [x]).findIdx (value? · = some a) = front.findIdx (value? · = some a) := by
        rw [List.findIdx_append, if_pos ((hfound a).mp ha)]
      have hbefore : (front.filterMap value?).eraseDups.Pairwise fun a b =>
          (front ++ [x]).findIdx (value? · = some a) <
            (front ++ [x]).findIdx (value? · = some b) :=
        ih.imp_of_mem fun ha hb hless => by rwa [hkept ha, hkept hb]
      cases hx : value? x with
      | none => simpa [hx] using hbefore
      | some b =>
          have hsingle : [x].filterMap value? = [b] := by simp [hx]
          rw [List.filterMap_append, hsingle, eraseDups_append_singleton]
          split
          next => exact hbefore
          next hnew =>
              rw [List.pairwise_append]
              refine ⟨hbefore, List.pairwise_singleton _ b, ?_⟩
              intro a ha other hother
              obtain rfl := List.mem_singleton.mp hother
              have hless := (hfound a).mp ha
              have hlate := mt (hfound other).mpr (by rwa [List.mem_eraseDups])
              rw [hkept ha, List.findIdx_append, if_neg hlate]
              omega

/-! ### Included names -/

/-- What trimming leaves has blanks in front of it and behind it, and neither begins
nor ends with one. -/
theorem trim_eq_iff {text name : List Char} :
    trim text = name ↔
      (∃ front back, (∀ c ∈ front, isBlank c = true) ∧ (∀ c ∈ back, isBlank c = true) ∧
        text = front ++ (name ++ back)) ∧
        name.head?.all (! isBlank ·) = true ∧ name.getLast?.all (! isBlank ·) = true := by
  unfold trim
  constructor
  · intro htrim
    rw [List.reverse_eq_iff, dropWhile_eq_iff] at htrim
    obtain ⟨⟨back, hback, hrest⟩, hlast⟩ := htrim
    rw [List.reverse_eq_iff, List.reverse_append, List.reverse_reverse, dropWhile_eq_iff] at hrest
    obtain ⟨⟨front, hfront, htext⟩, hhead⟩ := hrest
    rw [List.head?_reverse] at hlast
    refine ⟨⟨front, back.reverse, hfront, by simpa using hback, htext⟩, ?_, hlast⟩
    cases name with
    | nil => rfl
    | cons c cs => exact hhead
  · rintro ⟨⟨front, back, hfront, hback, rfl⟩, hhead, hlast⟩
    rw [List.dropWhile_append_of_pos hfront]
    cases name with
    | nil =>
        have hdrop : back.dropWhile isBlank = [] :=
          dropWhile_eq_iff.mpr ⟨⟨back, hback, (List.append_nil back).symm⟩, rfl⟩
        simp [hdrop]
    | cons c cs =>
        rw [List.reverse_eq_iff, dropWhile_eq_iff]
        refine ⟨⟨back.reverse, by simpa using hback, ?_⟩, by rwa [List.head?_reverse]⟩
        rw [List.cons_append, List.dropWhile_cons_of_neg (by simpa using hhead)]
        simp

/-- Whether a line includes a name, with blanks around it or not. -/
def LineIncludes (line : List Char) (name : String) : Prop :=
  ∃ inside, IsDirective line inside ∧ inside ≠ [] ∧ trim inside = name.toList ∧ name ≠ ""

/-- A line includes what stands between its brackets without the blanks around it. -/
theorem lineIncludes_iff {line : List Char} {name : String} :
    LineIncludes line name ↔
      (∃ front back, (∀ c ∈ front, isBlank c = true) ∧ (∀ c ∈ back, isBlank c = true) ∧
        IsDirective line (front ++ (name.toList ++ back))) ∧
        name ≠ "" ∧ name.toList.head?.all (! isBlank ·) = true ∧
          name.toList.getLast?.all (! isBlank ·) = true := by
  unfold LineIncludes
  simp only [trim_eq_iff]
  constructor
  · rintro ⟨_, hdirective, -, ⟨⟨front, back, hfront, hback, rfl⟩, hends⟩, hname⟩
    exact ⟨⟨front, back, hfront, hback, hdirective⟩, hname, hends⟩
  · rintro ⟨⟨front, back, hfront, hback, hdirective⟩, hname, hends⟩
    have hinside : front ++ (name.toList ++ back) ≠ [] := by simp [hname]
    exact ⟨_, hdirective, hinside, ⟨⟨front, back, hfront, hback, rfl⟩, hends⟩, hname⟩

def directiveName? (line : List Char) : Option String :=
  (includedName? line).map String.ofList

theorem directiveName?_eq_some_iff {line : List Char} {name : String} :
    directiveName? line = some name ↔ LineIncludes line name := by
  rw [directiveName?, Option.map_eq_some_iff]
  constructor
  · rintro ⟨characters, hincluded, rfl⟩
    obtain ⟨inside, hdirective, rfl, hname⟩ := includedName?_eq_some_iff.mp hincluded
    refine ⟨inside, hdirective, ?_, String.toList_ofList.symm, by simpa using hname⟩
    rintro rfl
    exact hname rfl
  · rintro ⟨inside, hdirective, -, htrim, hname⟩
    refine ⟨name.toList, ?_, String.ofList_toList⟩
    exact includedName?_eq_some_iff.mpr ⟨inside, hdirective, htrim, by simpa using hname⟩

theorem includes_eq (text : String) :
    includes text = ((lines text.toList).filterMap directiveName?).eraseDups := by
  rw [includes, ← eraseDups_map_of_injective fun _ _ => String.ofList_inj.mp, List.map_filterMap]
  rfl

/-- Whether a line, by its number from 0, is the first one that includes a
name. -/
def IsFirstLine (parts : List (List Char)) (name : String) (number : Nat) : Prop :=
  (∃ line, parts[number]? = some line ∧ LineIncludes line name) ∧
    ∀ earlier < number, ∀ line, parts[earlier]? = some line → ¬ LineIncludes line name

theorem isFirstLine_iff {parts : List (List Char)} {name : String} {number : Nat} :
    IsFirstLine parts name number ↔
      number < parts.length ∧ parts.findIdx (directiveName? · = some name) = number := by
  have hincludes {index : Nat} (hindex : index < parts.length) :
      (∃ line, parts[index]? = some line ∧ LineIncludes line name) ↔
        directiveName? parts[index] = some name := by
    simp [List.getElem?_eq_getElem hindex, directiveName?_eq_some_iff]
  constructor
  · rintro ⟨⟨line, hline, hfound⟩, hearlier⟩
    have hnumber : number < parts.length := (List.getElem?_eq_some_iff.mp hline).1
    refine ⟨hnumber, (List.findIdx_eq hnumber).mpr ⟨?_, ?_⟩⟩
    · exact decide_eq_true ((hincludes hnumber).mp ⟨line, hline, hfound⟩)
    · intro earlier hless
      refine decide_eq_false fun hfound => ?_
      obtain ⟨other, hother, hincluded⟩ := (hincludes (by omega)).mpr hfound
      exact hearlier earlier hless other hother hincluded
  · rintro ⟨hnumber, hindex⟩
    obtain ⟨hfound, hearlier⟩ := (List.findIdx_eq hnumber).mp hindex
    refine ⟨(hincludes hnumber).mpr (of_decide_eq_true hfound), ?_⟩
    intro earlier hless line hline hincluded
    exact of_decide_eq_false (hearlier earlier hless)
      ((hincludes (by omega)).mp ⟨line, hline, hincluded⟩)

/-- The names that a text includes are those that one of its lines includes.
Each stands once, and they stand in the order of the first lines that include
them. -/
theorem includes_iff_directive (text : String) :
    ∃ parts, (∀ other, HasLines text.toList other ↔ other = parts) ∧
      (∀ name, name ∈ includes text ↔ ∃ line ∈ parts, LineIncludes line name) ∧
      (includes text).Nodup ∧
      ∀ name other, [name, other].Sublist (includes text) ↔
        ∃ first second, IsFirstLine parts name first ∧ IsFirstLine parts other second ∧
          first < second := by
  have hmem (name : String) :
      name ∈ includes text ↔ ∃ line ∈ lines text.toList, LineIncludes line name := by
    rw [includes_eq, List.mem_eraseDups, List.mem_filterMap]
    simp only [directiveName?_eq_some_iff]
  have hfound (name : String) : name ∈ includes text ↔
      (lines text.toList).findIdx (directiveName? · = some name) <
        (lines text.toList).length := by
    rw [hmem, List.findIdx_lt_length]
    simp [directiveName?_eq_some_iff]
  have hranks := pairwise_findIdx_eraseDups_filterMap directiveName? (lines text.toList)
  rw [← includes_eq] at hranks
  refine ⟨lines text.toList, fun other => hasLines_iff, hmem, ?_, ?_⟩
  · exact hranks.imp fun hless heq => by simp [heq] at hless
  · intro name other
    rw [pair_sublist_iff_of_pairwise hranks, hfound, hfound]
    simp only [isFirstLine_iff]
    constructor
    · rintro ⟨hname, hother, hless⟩
      exact ⟨_, _, ⟨hname, rfl⟩, ⟨hother, rfl⟩, hless⟩
    · rintro ⟨_, _, ⟨hname, rfl⟩, ⟨hother, rfl⟩, hless⟩
      exact ⟨hname, hother, hless⟩

end Freestanding
