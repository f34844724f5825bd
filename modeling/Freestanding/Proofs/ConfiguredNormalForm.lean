import Mathlib.Data.List.DropRight
import Freestanding.Proofs.ConfiguredHeader

/-!
# Configured headers are a normal form

A line that a setting has written defines the macro of the setting and no other
one, and what stands behind it stays behind it.  So a setting made again changes
nothing, and two settings of different macros can be made in either order.

From these two laws it follows that a header is left alone by both settings
exactly if each of them leaves it alone.  A setting leaves a header alone exactly
if every line that defines its macro already is, up to the first carriage return,
what the setting writes.
-/

namespace Freestanding

namespace Setting

variable {setting other : Setting} {line contents : List UInt8}

/-! ### One setting -/

theorem dropWhile_definition_append (hreturn : 0x0D ∉ setting.definition) (rest : List UInt8) :
    (setting.definition ++ rest).dropWhile (· ≠ 0x0D) = rest.dropWhile (· ≠ 0x0D) := by
  apply List.dropWhile_append_of_pos
  intro byte hbyte
  simpa using ne_of_mem_of_not_mem hbyte hreturn

theorem IsProper.applyToLine_again (hproper : setting.IsProper)
    (hreturn : 0x0D ∉ setting.definition) (line : List UInt8) :
    setting.applyToLine (setting.applyToLine line) = setting.applyToLine line := by
  by_cases hdefined : setting.IsDefinedIn line
  · rw [hproper.applyToLine_of_isDefinedIn hdefined,
      hproper.applyToLine_of_isDefinedIn (setting.isDefinedIn_definition_append _),
      dropWhile_definition_append hreturn, List.dropWhile_idempotent]
  · rw [hproper.applyToLine_of_not_isDefinedIn hdefined,
      hproper.applyToLine_of_not_isDefinedIn hdefined]

theorem IsProper.applyToLine_eq_self_iff (hproper : setting.IsProper) :
    setting.applyToLine line = line ↔
      (setting.IsDefinedIn line → line.takeWhile (· ≠ 0x0D) = setting.definition) := by
  by_cases hdefined : setting.IsDefinedIn line
  · rw [hproper.applyToLine_of_isDefinedIn hdefined, imp_iff_right hdefined]
    constructor
    · intro hsame
      have hsplit : setting.definition ++ line.dropWhile (· ≠ 0x0D) =
          line.takeWhile (· ≠ 0x0D) ++ line.dropWhile (· ≠ 0x0D) := by
        rw [hsame, List.takeWhile_append_dropWhile]
      exact (List.append_cancel_right hsplit).symm
    · intro hwritten
      rw [← hwritten, List.takeWhile_append_dropWhile]
  · simp [hproper.applyToLine_of_not_isDefinedIn hdefined, hdefined]

theorem IsProper.apply_again (hproper : setting.IsProper) (hreturn : 0x0D ∉ setting.definition)
    (contents : List UInt8) :
    setting.apply (setting.apply contents) = setting.apply contents := by
  rw [hproper.apply_eq_intercalate (setting.apply contents), hproper.pieces_apply, List.map_map,
    hproper.apply_eq_intercalate contents]
  congr 2
  funext line
  exact hproper.applyToLine_again hreturn line

theorem IsProper.apply_eq_self_iff (hproper : setting.IsProper) :
    setting.apply contents = contents ↔
      ∀ line ∈ pieces 0x0A contents,
        setting.IsDefinedIn line → line.takeWhile (· ≠ 0x0D) = setting.definition := by
  have hlines : (pieces 0x0A contents).map setting.applyToLine = pieces 0x0A contents ↔
      ∀ line ∈ pieces 0x0A contents, setting.applyToLine line = line := by
    rw [← List.map_inj_left, List.map_id']
  simp only [← hproper.applyToLine_eq_self_iff, ← hlines]
  constructor
  · intro hsame
    rw [← hproper.pieces_apply, hsame]
  · intro hmap
    rw [hproper.apply_eq_intercalate, hmap, intercalate_pieces]

/-! ### Two settings -/

section Other

variable (hproper : setting.IsProper) (hother : other.IsProper)
  (hnames : Utf8.encode setting.macroName ≠ Utf8.encode other.macroName)

include hproper hother hnames

/-- A line defines another macro as little or as much as before. -/
theorem IsProper.isDefinedIn_applyToLine_iff :
    other.IsDefinedIn (setting.applyToLine line) ↔ other.IsDefinedIn line := by
  by_cases hdefined : setting.IsDefinedIn line
  · have hwritten := setting.isDefinedIn_definition_append (line.dropWhile (· ≠ 0x0D))
    rw [hproper.applyToLine_of_isDefinedIn hdefined]
    exact iff_of_false (hproper.not_isDefinedIn_of_isDefinedIn hother hnames hwritten)
      (hproper.not_isDefinedIn_of_isDefinedIn hother hnames hdefined)
  · rw [hproper.applyToLine_of_not_isDefinedIn hdefined]

theorem IsProper.applyToLine_comm (line : List UInt8) :
    setting.applyToLine (other.applyToLine line) =
      other.applyToLine (setting.applyToLine line) := by
  by_cases hdefined : setting.IsDefinedIn line
  · have habsent := hproper.not_isDefinedIn_of_isDefinedIn hother hnames hdefined
    have hstill := mt (hproper.isDefinedIn_applyToLine_iff hother hnames).mp habsent
    rw [hother.applyToLine_of_not_isDefinedIn habsent,
      hother.applyToLine_of_not_isDefinedIn hstill]
  · have hstill := mt (hother.isDefinedIn_applyToLine_iff hproper hnames.symm).mp hdefined
    rw [hproper.applyToLine_of_not_isDefinedIn hdefined,
      hproper.applyToLine_of_not_isDefinedIn hstill]

theorem IsProper.apply_comm (contents : List UInt8) :
    setting.apply (other.apply contents) = other.apply (setting.apply contents) := by
  rw [hproper.apply_eq_intercalate, hother.pieces_apply, hother.apply_eq_intercalate,
    hproper.pieces_apply, List.map_map, List.map_map]
  congr 2
  funext line
  exact hproper.applyToLine_comm hother hnames line

end Other

end Setting

/-! ### The configured header -/

theorem visibility_apply_again (contents : List UInt8) :
    visibility.apply (visibility.apply contents) = visibility.apply contents :=
  Setting.isProper_visibility.apply_again (by decide) contents

theorem inlineVersion_apply_again (contents : List UInt8) :
    inlineVersion.apply (inlineVersion.apply contents) = inlineVersion.apply contents :=
  Setting.isProper_inlineVersion.apply_again (by decide) contents

theorem visibility_apply_inlineVersion_apply (contents : List UInt8) :
    visibility.apply (inlineVersion.apply contents) = configure contents :=
  Setting.isProper_visibility.apply_comm Setting.isProper_inlineVersion (by decide) contents

theorem visibility_apply_configure (contents : List UInt8) :
    visibility.apply (configure contents) = configure contents := by
  rw [configure, visibility_apply_inlineVersion_apply, configure, visibility_apply_again]

theorem inlineVersion_apply_configure (contents : List UInt8) :
    inlineVersion.apply (configure contents) = configure contents := by
  rw [configure, inlineVersion_apply_again]

/-- A header is configured exactly if both settings leave it alone. -/
theorem configure_eq_self_iff {contents : List UInt8} :
    configure contents = contents ↔
      visibility.apply contents = contents ∧ inlineVersion.apply contents = contents := by
  constructor
  · intro hsame
    rw [← hsame]
    exact ⟨visibility_apply_configure contents, inlineVersion_apply_configure contents⟩
  · rintro ⟨hvisibility, hversion⟩
    rw [configure, hvisibility, hversion]

/-- To configure a header brings it into a normal form: to do it again changes
nothing, and the two settings can be made in either order.  A header is in this
form exactly if each of its lines between line feeds that defines one of the two
macros is, up to its first carriage return, the definition that the setting
prescribes. -/
theorem configure_isNormalForm (contents : List UInt8) :
    configure (configure contents) = configure contents ∧
      visibility.apply (inlineVersion.apply contents) =
        inlineVersion.apply (visibility.apply contents) ∧
      (configure contents = contents ↔
        ∀ line ∈ pieces 0x0A contents,
          (visibility.IsDefinedIn line → line.takeWhile (· ≠ 0x0D) =
              Utf8.encode "# define _GLIBCXX_HAVE_ATTRIBUTE_VISIBILITY 1") ∧
            (inlineVersion.IsDefinedIn line → line.takeWhile (· ≠ 0x0D) =
              Utf8.encode "# define _GLIBCXX_INLINE_VERSION 0")) := by
  have hvisibility : visibility.definition =
      Utf8.encode "# define _GLIBCXX_HAVE_ATTRIBUTE_VISIBILITY 1" := rfl
  have hversion : inlineVersion.definition =
      Utf8.encode "# define _GLIBCXX_INLINE_VERSION 0" := rfl
  refine ⟨?_, visibility_apply_inlineVersion_apply contents, ?_⟩
  · exact configure_eq_self_iff.mpr
      ⟨visibility_apply_configure contents, inlineVersion_apply_configure contents⟩
  · rw [configure_eq_self_iff, Setting.isProper_visibility.apply_eq_self_iff,
      Setting.isProper_inlineVersion.apply_eq_self_iff, ← hvisibility, ← hversion]
    simp only [forall_and]

end Freestanding
