import Freestanding.Proofs.ByteLines
import Freestanding.Setting

/-!
# Settings line by line

A setting is applied to a header by a machine that reads its bytes once.  It
comes to the same as replacing each of the lines between line feeds on its own:
whether a line defines the macro is decided by the line alone.

A line that is replaced, and the line that it is replaced by, are both
definitions and hence include nothing, so that a setting leaves alone what the
header includes.
-/

namespace Freestanding

namespace Setting

/-- The bytes of the word `define`. -/
def defineWord : List UInt8 :=
  Utf8.encode "define"

/-- Whether a setting is one of a macro, and gives it a value on one line. -/
structure IsProper (setting : Setting) : Prop where
  all_isWordByte : (Utf8.encode setting.macroName).all isWordByte = true
  ne_nil : Utf8.encode setting.macroName ≠ []
  definition : 0x0A ∉ setting.definition

theorem isProper_visibility : visibility.IsProper where
  all_isWordByte := by decide
  ne_nil := by decide
  definition := by decide

theorem isProper_inlineVersion : inlineVersion.IsProper where
  all_isWordByte := by decide
  ne_nil := by decide
  definition := by decide

variable {setting : Setting}

theorem IsProper.isWordByte (hproper : setting.IsProper) {byte : UInt8}
    (hbyte : byte ∈ Utf8.encode setting.macroName) : isWordByte byte = true :=
  List.all_eq_true.mp hproper.all_isWordByte byte hbyte

/-- Whether bytes define the macro of a setting, with something behind its name. -/
def Defines (setting : Setting) (bytes rest : List UInt8) : Prop :=
  ∃ before between gap,
    (∀ byte ∈ before, isGap byte = true) ∧ (∀ byte ∈ between, isGap byte = true) ∧
      (∀ byte ∈ gap, isGap byte = true) ∧ gap ≠ [] ∧
      rest.head?.all (! isWordByte ·) = true ∧
      bytes = before ++ 0x23 :: (between ++ defineWord ++
        (gap ++ Utf8.encode setting.macroName ++ rest))

theorem isGap_of_isWordByte {byte : UInt8} (hbyte : isWordByte byte = true) :
    isGap byte = false := by
  by_contra hgap
  simp only [isGap, Bool.not_eq_false, Bool.or_eq_true, decide_eq_true_eq] at hgap
  rcases hgap with rfl | rfl
  · exact absurd hbyte (by decide)
  · exact absurd hbyte (by decide)

theorem IsProper.afterName?_eq_some_iff (hproper : setting.IsProper)
    {bytes rest : List UInt8} :
    setting.afterName? bytes = some rest ↔ setting.Defines bytes rest := by
  have hhash : Utf8.encode "#" = [0x23] := by decide
  have hword : defineWord = 0x64 :: Utf8.encode "efine" := by decide
  obtain ⟨first, name, hname⟩ := List.exists_cons_of_ne_nil hproper.ne_nil
  have hfirst : isGap first = false :=
    isGap_of_isWordByte (hproper.isWordByte (by simp [hname]))
  unfold afterName? Defines
  rw [← defineWord]
  simp only [Option.bind_eq_bind, Option.bind_eq_some_iff, Option.guard_eq_some',
    Option.pure_def, Option.some.injEq, exists_const,
    List.isPrefixOf?_eq_some_iff_append_eq, hhash, hword, hname, List.cons_append,
    List.nil_append]
  constructor
  · rintro ⟨afterHash, hdropHash, afterWord, hdropWord, hgap, after, hdropName, hend, rfl⟩
    obtain ⟨-, before, hbefore, rfl⟩ := dropWhile_eq_cons_iff.mp hdropHash.symm
    obtain ⟨-, between, hbetween, rfl⟩ := dropWhile_eq_cons_iff.mp hdropWord.symm
    obtain ⟨-, gap, hgaps, rfl⟩ := dropWhile_eq_cons_iff.mp hdropName.symm
    rw [takeWhile_append_of_neg hgaps hfirst] at hgap
    exact ⟨before, between, gap, hbefore, hbetween, hgaps, hgap, hend, by simp⟩
  · rintro ⟨before, between, gap, hbefore, hbetween, hgaps, hgap, hend, rfl⟩
    refine ⟨_, (dropWhile_eq_cons_iff.mpr ⟨by decide, before, hbefore, rfl⟩).symm,
      gap ++ first :: (name ++ rest), ?_, ?_, rest, ?_, hend, rfl⟩
    · refine (dropWhile_eq_cons_iff.mpr ⟨by decide, between, hbetween, ?_⟩).symm
      simp
    · rw [takeWhile_append_of_neg hgaps hfirst]
      exact hgap
    · exact (dropWhile_eq_cons_iff.mpr ⟨hfirst, gap, hgaps, rfl⟩).symm

/-! ### Whether a line is a definition -/

theorem isLineEnd_eq_false_of_isGap {byte : UInt8} (hgap : isGap byte = true) :
    isLineEnd byte = false := by
  simp only [isGap, Bool.or_eq_true, decide_eq_true_eq] at hgap
  rcases hgap with rfl | rfl
  · decide
  · decide

theorem isWordByte_eq_false_of_isLineEnd {byte : UInt8} (hend : isLineEnd byte = true) :
    isWordByte byte = false := by
  simp only [isLineEnd, Bool.or_eq_true, decide_eq_true_eq] at hend
  rcases hend with rfl | rfl
  · decide
  · decide

/-- Whether bytes are what may stand behind a line: nothing, or a line feed and
more. -/
def EndsLine (rest : List UInt8) : Prop :=
  rest = [] ∨ ∃ more, rest = 0x0A :: more

theorem EndsLine.all_isLineEnd_head? {rest : List UInt8} (hrest : EndsLine rest) :
    rest.head?.all isLineEnd = true := by
  rcases hrest with rfl | ⟨more, rfl⟩
  · rfl
  · rfl

theorem all_not_isWordByte_head? {rest : List UInt8} (hrest : rest.head?.all isLineEnd = true) :
    rest.head?.all (! isWordByte ·) = true := by
  cases rest with
  | nil => rfl
  | cons byte rest =>
      have hend : isLineEnd byte = true := by simpa using hrest
      simp [isWordByte_eq_false_of_isLineEnd hend]

/-- A definition does not go on behind the end of the line. -/
theorem IsProper.defines_append (hproper : setting.IsProper)
    {line rest : List UInt8} (hrest : rest.head?.all isLineEnd = true) :
    (∃ after, setting.Defines (line ++ rest) after) ↔ ∃ after, setting.Defines line after := by
  constructor
  · rintro ⟨after, before, between, gap, hbefore, hbetween, hgaps, hgap, hend, hline⟩
    have hfront : ∀ byte ∈ before ++ 0x23 :: (between ++ defineWord ++
        (gap ++ Utf8.encode setting.macroName)), isLineEnd byte = false := by
      have hword : defineWord.all (! isLineEnd ·) = true := by decide
      have hname : ∀ byte ∈ Utf8.encode setting.macroName, isLineEnd byte = false := by
        intro byte hbyte
        rw [← Bool.not_eq_true]
        intro hend
        have hother := isWordByte_eq_false_of_isLineEnd hend
        simp [hproper.isWordByte hbyte] at hother
      simp only [List.mem_append, List.mem_cons]
      rintro byte (hmem | rfl | (hmem | hmem) | hmem | hmem)
      · exact isLineEnd_eq_false_of_isGap (hbefore byte hmem)
      · decide
      · exact isLineEnd_eq_false_of_isGap (hbetween byte hmem)
      · simpa using List.all_eq_true.mp hword byte hmem
      · exact isLineEnd_eq_false_of_isGap (hgaps byte hmem)
      · exact hname byte hmem
    have hsplit : line ++ rest = (before ++ 0x23 :: (between ++ defineWord ++
        (gap ++ Utf8.encode setting.macroName))) ++ after := by
      rw [hline]
      simp
    rcases List.append_eq_append_iff.mp hsplit with ⟨inner, hinner, rfl⟩ | ⟨inner, rfl, rfl⟩
    · have hempty : inner = [] := by
        cases inner with
        | nil => rfl
        | cons byte inner =>
            have hfound := hfront byte (hinner ▸ by simp)
            simp [hfound] at hrest
      subst hempty
      refine ⟨[], before, between, gap, hbefore, hbetween, hgaps, hgap, by simp, ?_⟩
      simpa using hinner.symm
    · refine ⟨inner, before, between, gap, hbefore, hbetween, hgaps, hgap, ?_, by simp⟩
      cases inner with
      | nil => rfl
      | cons byte inner => exact hend
  · rintro ⟨after, before, between, gap, hbefore, hbetween, hgaps, hgap, hend, rfl⟩
    refine ⟨after ++ rest, before, between, gap, hbefore, hbetween, hgaps, hgap, ?_, by simp⟩
    cases after with
    | nil => exact all_not_isWordByte_head? hrest
    | cons byte after => exact hend

theorem IsProper.isSome_afterName?_append (hproper : setting.IsProper)
    (line : List UInt8) {rest : List UInt8} (hrest : rest.head?.all isLineEnd = true) :
    (setting.afterName? (line ++ rest)).isSome = (setting.afterName? line).isSome := by
  rw [Bool.eq_iff_iff, Option.isSome_iff_exists, Option.isSome_iff_exists]
  simp only [hproper.afterName?_eq_some_iff]
  exact hproper.defines_append hrest

/-- The line that a setting writes defines its macro, whatever stands behind it. -/
theorem defines_definition_append (setting : Setting) (rest : List UInt8) :
    setting.Defines (setting.definition ++ rest)
      (0x20 :: (Utf8.encode setting.value ++ rest)) := by
  have hopening : Utf8.encode "# define " = 0x23 :: ([0x20] ++ defineWord ++ [0x20]) := by decide
  have hspace : Utf8.encode " " = [0x20] := by decide
  have hgap : ∀ byte ∈ [(0x20 : UInt8)], isGap byte = true :=
    List.forall_mem_singleton.mpr (by decide)
  refine ⟨[], [0x20], [0x20], List.forall_mem_nil _, hgap, hgap, List.cons_ne_nil _ _, rfl, ?_⟩
  rw [definition, Utf8.encode_append, Utf8.encode_append, Utf8.encode_append, hopening, hspace]
  simp

/-! ### Replacing line by line -/

/-- A line with a setting applied.  What stands behind a carriage return stays. -/
def applyToLine (setting : Setting) (line : List UInt8) : List UInt8 :=
  if (setting.afterName? line).isSome then setting.definition ++ line.dropWhile (· ≠ 0x0D)
  else line

theorem replaceFrom_keeping (setting : Setting) {line : List UInt8} (hline : 0x0A ∉ line)
    (rest : List UInt8) :
    setting.replaceFrom .keeping (line ++ rest) = line ++ setting.replaceFrom .keeping rest := by
  induction line with
  | nil => rfl
  | cons byte line ih =>
      rw [List.mem_cons, not_or] at hline
      rw [List.cons_append, replaceFrom, Position.after, if_neg (Ne.symm hline.1), ih hline.2]
      rfl

theorem replaceFrom_dropping (setting : Setting) {line rest : List UInt8}
    (hline : 0x0A ∉ line) (hrest : EndsLine rest) :
    setting.replaceFrom .dropping (line ++ rest) =
      line.dropWhile (· ≠ 0x0D) ++ setting.replaceFrom .keeping rest := by
  induction line with
  | nil =>
      rcases hrest with rfl | ⟨more, rfl⟩
      · rfl
      · rfl
  | cons byte line ih =>
      rw [List.mem_cons, not_or] at hline
      rw [List.cons_append, replaceFrom]
      by_cases hreturn : byte = 0x0D
      · subst hreturn
        have hkeep := setting.replaceFrom_keeping hline.2 rest
        simpa [isLineEnd, Position.after] using hkeep
      · have hend : isLineEnd byte = false := by
          simp [isLineEnd, hreturn, Ne.symm hline.1]
        simp [hend, hreturn, ih hline.2]

theorem Defines.head_ne_return {byte : UInt8} {line after : List UInt8}
    (hdefines : setting.Defines (byte :: line) after) : byte ≠ 0x0D := by
  rintro rfl
  obtain ⟨before, between, gap, hbefore, -, -, -, -, hline⟩ := hdefines
  cases before with
  | nil => simp at hline
  | cons head before =>
      obtain ⟨rfl, -⟩ := List.cons.inj hline
      exact absurd (hbefore 0x0D List.mem_cons_self) (by decide)

theorem IsProper.replaceFrom_lineStart (hproper : setting.IsProper)
    {line rest : List UInt8} (hline : 0x0A ∉ line) (hrest : EndsLine rest) :
    setting.replaceFrom .lineStart (line ++ rest) =
      setting.applyToLine line ++ setting.replaceFrom .keeping rest := by
  have hlocal := hproper.isSome_afterName?_append line hrest.all_isLineEnd_head?
  unfold applyToLine
  cases line with
  | nil =>
      have hempty : setting.afterName? [] = none := rfl
      rw [hempty, List.nil_append] at hlocal
      rcases hrest with rfl | ⟨more, rfl⟩
      · simp [hempty, replaceFrom]
      · simp [hempty, replaceFrom, hlocal]
  | cons byte line =>
      rw [List.mem_cons, not_or] at hline
      rw [List.cons_append] at hlocal ⊢
      rw [replaceFrom, hlocal]
      cases hdefined : setting.afterName? (byte :: line) with
      | none =>
          have hkeep := setting.replaceFrom_keeping hline.2 rest
          simpa [Position.after, Ne.symm hline.1] using hkeep
      | some after =>
          have hreturn : byte ≠ 0x0D :=
            (hproper.afterName?_eq_some_iff.mp hdefined).head_ne_return
          have hdrop := setting.replaceFrom_dropping hline.2 hrest
          simp [hdrop, hreturn]

theorem IsProper.apply_intercalate (hproper : setting.IsProper)
    {lines : List (List UInt8)} (hlines : ∀ line ∈ lines, 0x0A ∉ line) :
    setting.apply ([0x0A].intercalate lines) =
      [0x0A].intercalate (lines.map setting.applyToLine) := by
  unfold apply
  induction lines with
  | nil => rfl
  | cons line rest ih =>
      have hline := hlines line List.mem_cons_self
      have hrest := ih fun other hother => hlines other (List.mem_cons_of_mem _ hother)
      cases rest with
      | nil =>
          have hlast := hproper.replaceFrom_lineStart hline (.inl rfl)
          simpa [replaceFrom] using hlast
      | cons next rest =>
          rw [List.intercalate_cons_cons, List.append_assoc, List.singleton_append,
            hproper.replaceFrom_lineStart hline (.inr ⟨_, rfl⟩), replaceFrom, Position.after,
            if_pos rfl, hrest]
          simp

/-- A setting is applied to each line on its own. -/
theorem IsProper.apply_eq_intercalate (hproper : setting.IsProper)
    (contents : List UInt8) :
    setting.apply contents =
      [0x0A].intercalate ((pieces 0x0A contents).map setting.applyToLine) := by
  rw [← hproper.apply_intercalate fun _ => not_mem_of_mem_pieces, intercalate_pieces]

theorem IsProper.newline_not_mem_applyToLine (hproper : setting.IsProper)
    {line : List UInt8} (hline : 0x0A ∉ line) : 0x0A ∉ setting.applyToLine line := by
  unfold applyToLine
  split
  · rw [List.mem_append, not_or]
    refine ⟨hproper.definition, fun hmem => hline ?_⟩
    exact (List.dropWhile_suffix _).mem hmem
  · exact hline

theorem IsProper.pieces_apply (hproper : setting.IsProper)
    (contents : List UInt8) :
    pieces 0x0A (setting.apply contents) =
      (pieces 0x0A contents).map setting.applyToLine := by
  rw [hproper.apply_eq_intercalate]
  refine pieces_intercalate (by simp [pieces_ne_nil]) ?_
  intro line hline
  obtain ⟨piece, hpiece, rfl⟩ := List.mem_map.mp hline
  exact hproper.newline_not_mem_applyToLine (not_mem_of_mem_pieces hpiece)

end Setting

/-! ### What a header includes -/

theorem isBlank_ofNat_of_isGap {byte : UInt8} (hgap : isGap byte = true) :
    byte.toNat ≤ 0x7F ∧ isBlank (Char.ofNat byte.toNat) = true := by
  simp only [isGap, Bool.or_eq_true, decide_eq_true_eq] at hgap
  rcases hgap with rfl | rfl
  · exact ⟨by decide, rfl⟩
  · exact ⟨by decide, rfl⟩

theorem isBlank_of_mem_decode {gaps : List UInt8} (hgaps : ∀ byte ∈ gaps, isGap byte = true) :
    ∀ c ∈ (Utf8.decode gaps).toList, isBlank c = true := by
  induction gaps with
  | nil => simp [Utf8.decode, Utf8.Decoder.characters, Utf8.State.finish]
  | cons byte gaps ih =>
      obtain ⟨hascii, hblank⟩ := isBlank_ofNat_of_isGap (hgaps byte List.mem_cons_self)
      have hrest := ih fun other hother => hgaps other (List.mem_cons_of_mem _ hother)
      rw [Utf8.decode_cons_ascii hascii]
      exact List.forall_mem_cons.mpr ⟨hblank, hrest⟩

/-- A definition includes nothing. -/
theorem lineName?_eq_none_of_define {before between : List UInt8}
    (hbefore : ∀ byte ∈ before, isGap byte = true)
    (hbetween : ∀ byte ∈ between, isGap byte = true) (rest : List UInt8) :
    lineName? (before ++ 0x23 :: (between ++ 0x64 :: rest)) = none := by
  have hhash : Char.ofNat (0x23 : UInt8).toNat = '#' := rfl
  have hletter : Char.ofNat (0x64 : UInt8).toNat = 'd' := rfl
  have hblank : isBlank 'd' = false := rfl
  unfold lineName? includedName?
  rw [Utf8.decode_append_ascii (by decide), Utf8.decode_append_ascii (by decide), hhash, hletter]
  simp only [String.toList_append, String.toList_singleton, List.append_assoc,
    List.singleton_append]
  rw [List.dropWhile_append_of_pos (isBlank_of_mem_decode hbefore),
    List.dropWhile_cons_of_neg (by decide)]
  simp [List.isPrefixOf?, List.dropWhile_append_of_pos (isBlank_of_mem_decode hbetween),
    hblank]

theorem Setting.Defines.lineName?_eq_none {setting : Setting} {line after : List UInt8}
    (hdefines : setting.Defines line after) : lineName? line = none := by
  have hword : defineWord = 0x64 :: Utf8.encode "efine" := by decide
  obtain ⟨before, between, gap, hbefore, hbetween, -, -, -, hline⟩ := hdefines
  rw [hline, hword]
  simpa using lineName?_eq_none_of_define hbefore hbetween _

theorem Setting.lineName?_applyToLine {setting : Setting} (hproper : setting.IsProper)
    (line : List UInt8) : lineName? (setting.applyToLine line) = lineName? line := by
  unfold applyToLine
  split
  next hdefined =>
      obtain ⟨after, hafter⟩ := Option.isSome_iff_exists.mp hdefined
      have hold := (hproper.afterName?_eq_some_iff.mp hafter).lineName?_eq_none
      rw [hold, (setting.defines_definition_append _).lineName?_eq_none]
  next => rfl

/-- Giving a macro its value leaves alone what a header includes. -/
theorem Setting.dependencies_apply {setting : Setting} (hproper : setting.IsProper)
    (contents : List UInt8) :
    dependencies (setting.apply contents) = dependencies contents := by
  rw [dependencies_eq, dependencies_eq, hproper.pieces_apply, List.filterMap_map]
  simp only [Function.comp_def, lineName?_applyToLine hproper]

theorem dependencies_configure (contents : List UInt8) :
    dependencies (configure contents) = dependencies contents := by
  rw [configure, Setting.dependencies_apply Setting.isProper_inlineVersion,
    Setting.dependencies_apply Setting.isProper_visibility]

end Freestanding
