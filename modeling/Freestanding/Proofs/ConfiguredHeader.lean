import Freestanding.Proofs.Frontier
import Freestanding.Proofs.InstallationRun
import Freestanding.Proofs.SettingLines

/-!
# The configured header

The two settings of the configuration header are made one after the other, each
in a pass over all of its bytes.  A line defines one of the two macros at most,
and what it is replaced by defines the same one, so that both passes come to a
single one in which every line is looked at on its own.

The names that the header includes stay the same.  What a search reads off the
configuration header in the source tree is therefore also what the installed one
includes.
-/

namespace Freestanding

namespace Setting

variable {setting : Setting} {line rest : List UInt8}

/-! ### Lines that define a macro -/

/-- Whether a line is a definition of the macro. -/
def IsDefinedIn (setting : Setting) (line : List UInt8) : Prop :=
  ∃ rest, setting.Defines line rest

theorem IsProper.isSome_afterName?_iff (hproper : setting.IsProper) :
    (setting.afterName? line).isSome = true ↔ setting.IsDefinedIn line := by
  rw [Option.isSome_iff_exists]
  exact exists_congr fun _ => hproper.afterName?_eq_some_iff

instance : DecidablePred visibility.IsDefinedIn :=
  fun _ => decidable_of_iff _ isProper_visibility.isSome_afterName?_iff

instance : DecidablePred inlineVersion.IsDefinedIn :=
  fun _ => decidable_of_iff _ isProper_inlineVersion.isSome_afterName?_iff

theorem IsProper.applyToLine_of_isDefinedIn (hproper : setting.IsProper)
    (hdefined : setting.IsDefinedIn line) :
    setting.applyToLine line = setting.definition ++ line.dropWhile (· ≠ 0x0D) := by
  rw [applyToLine, if_pos (hproper.isSome_afterName?_iff.mpr hdefined)]

theorem IsProper.applyToLine_of_not_isDefinedIn (hproper : setting.IsProper)
    (hdefined : ¬ setting.IsDefinedIn line) : setting.applyToLine line = line := by
  rw [applyToLine, if_neg (mt hproper.isSome_afterName?_iff.mp hdefined)]

theorem isDefinedIn_definition_append (setting : Setting) (rest : List UInt8) :
    setting.IsDefinedIn (setting.definition ++ rest) :=
  ⟨_, setting.defines_definition_append rest⟩

/-- The word in a line that stands where a definition has the name of its macro. -/
def definedWord (line : List UInt8) : List UInt8 :=
  let behindHash := (line.dropWhile isGap).drop 1
  let behindDefine := (behindHash.dropWhile isGap).drop defineWord.length
  (behindDefine.dropWhile isGap).takeWhile isWordByte

theorem takeWhile_isWordByte_append {word : List UInt8}
    (hword : ∀ byte ∈ word, isWordByte byte = true)
    (hrest : rest.head?.all (! isWordByte ·) = true) :
    (word ++ rest).takeWhile isWordByte = word := by
  rw [List.takeWhile_append_of_pos hword]
  cases rest with
  | nil => simp
  | cons byte rest =>
      have hbyte : isWordByte byte = false := by simpa using hrest
      simp [hbyte]

theorem IsProper.definedWord_eq (hproper : setting.IsProper) (hdefined : setting.IsDefinedIn line) :
    definedWord line = Utf8.encode setting.macroName := by
  obtain ⟨rest, before, between, gap, hbefore, hbetween, hgap, -, hrest, rfl⟩ := hdefined
  have hword : defineWord = 0x64 :: Utf8.encode "efine" := by decide
  obtain ⟨first, name, hname⟩ := List.exists_cons_of_ne_nil hproper.ne_nil
  have hfirst : isGap first = false :=
    isGap_of_isWordByte (hproper.isWordByte (by simp [hname]))
  have hhash : isGap 0x23 = false := by decide
  have hletter : isGap 0x64 = false := by decide
  have hbehind : (between ++ defineWord ++ (gap ++ Utf8.encode setting.macroName ++ rest)).dropWhile
      isGap = defineWord ++ (gap ++ Utf8.encode setting.macroName ++ rest) := by
    rw [List.append_assoc, List.dropWhile_append_of_pos hbetween, hword, List.cons_append,
      List.dropWhile_cons_of_neg (by simp [hletter])]
  have hdrop : (gap ++ Utf8.encode setting.macroName ++ rest).dropWhile isGap =
      Utf8.encode setting.macroName ++ rest := by
    rw [List.append_assoc, List.dropWhile_append_of_pos hgap, hname, List.cons_append,
      List.dropWhile_cons_of_neg (by simp [hfirst])]
  simp only [definedWord, List.dropWhile_append_of_pos hbefore,
    List.dropWhile_cons_of_neg (by simp [hhash] : ¬ isGap 0x23 = true), List.drop_one,
    List.tail_cons, hbehind, List.drop_left, hdrop]
  exact takeWhile_isWordByte_append (fun _ => hproper.isWordByte) hrest

/-- A line defines one macro at most. -/
theorem IsProper.not_isDefinedIn_of_isDefinedIn {other : Setting} (hproper : setting.IsProper)
    (hother : other.IsProper)
    (hnames : Utf8.encode setting.macroName ≠ Utf8.encode other.macroName)
    (hdefined : setting.IsDefinedIn line) : ¬ other.IsDefinedIn line := by
  intro hagain
  exact hnames ((hproper.definedWord_eq hdefined).symm.trans (hother.definedWord_eq hagain))

theorem not_isDefinedIn_inlineVersion (hdefined : visibility.IsDefinedIn line) :
    ¬ inlineVersion.IsDefinedIn line :=
  isProper_visibility.not_isDefinedIn_of_isDefinedIn isProper_inlineVersion (by decide) hdefined

end Setting

/-! ### Both settings -/

/-- What becomes of a line of the configuration header. -/
def configureLine (line : List UInt8) : List UInt8 :=
  if visibility.IsDefinedIn line then
    Utf8.encode "# define _GLIBCXX_HAVE_ATTRIBUTE_VISIBILITY 1" ++ line.dropWhile (· ≠ 0x0D)
  else if inlineVersion.IsDefinedIn line then
    Utf8.encode "# define _GLIBCXX_INLINE_VERSION 0" ++ line.dropWhile (· ≠ 0x0D)
  else line

/-- The second setting leaves the lines alone that the first one has written. -/
theorem applyToLine_applyToLine (line : List UInt8) :
    inlineVersion.applyToLine (visibility.applyToLine line) = configureLine line := by
  have hvisibility : visibility.definition =
      Utf8.encode "# define _GLIBCXX_HAVE_ATTRIBUTE_VISIBILITY 1" := rfl
  have hversion : inlineVersion.definition =
      Utf8.encode "# define _GLIBCXX_INLINE_VERSION 0" := rfl
  rw [configureLine, ← hvisibility, ← hversion]
  split_ifs with hfirst hsecond
  · have hwritten := visibility.isDefinedIn_definition_append (line.dropWhile (· ≠ 0x0D))
    rw [Setting.isProper_visibility.applyToLine_of_isDefinedIn hfirst,
      Setting.isProper_inlineVersion.applyToLine_of_not_isDefinedIn
        (Setting.not_isDefinedIn_inlineVersion hwritten)]
  · rw [Setting.isProper_visibility.applyToLine_of_not_isDefinedIn hfirst,
      Setting.isProper_inlineVersion.applyToLine_of_isDefinedIn hsecond]
  · rw [Setting.isProper_visibility.applyToLine_of_not_isDefinedIn hfirst,
      Setting.isProper_inlineVersion.applyToLine_of_not_isDefinedIn hsecond]

theorem pieces_configure (contents : List UInt8) :
    pieces 0x0A (configure contents) = (pieces 0x0A contents).map configureLine := by
  rw [configure, Setting.isProper_inlineVersion.pieces_apply,
    Setting.isProper_visibility.pieces_apply, List.map_map]
  exact List.map_congr_left fun line _ => applyToLine_applyToLine line

theorem configure_eq_intercalate (contents : List UInt8) :
    configure contents = [0x0A].intercalate ((pieces 0x0A contents).map configureLine) := by
  rw [← pieces_configure, intercalate_pieces]

/-- To configure a header is to look at each of its lines between line feeds on
its own.  A line that defines one of the two macros, which it does for one of
them at most, becomes the definition that the setting prescribes, with what
stands in the line from its first carriage return on.  All other lines stay. -/
theorem configure_lineByLine (contents : List UInt8) :
    (∃ lines, [0x0A].intercalate lines = contents ∧ lines ≠ [] ∧ (∀ line ∈ lines, 0x0A ∉ line) ∧
        configure contents = [0x0A].intercalate (lines.map configureLine)) ∧
      ∀ line, ¬ (visibility.IsDefinedIn line ∧ inlineVersion.IsDefinedIn line) := by
  refine ⟨⟨pieces 0x0A contents, intercalate_pieces contents, pieces_ne_nil _ _, ?_, ?_⟩, ?_⟩
  · exact fun line hline => not_mem_of_mem_pieces hline
  · exact configure_eq_intercalate contents
  · exact fun line hboth => Setting.not_isDefinedIn_inlineVersion hboth.1 hboth.2

/-! ### What the configured header includes -/

namespace FileSystem

/-- The configuration header, when it has been installed, holds the configured
bytes of its source. -/
theorem read_installed_configHeader {before after : FileSystem} {root source : Path}
    {event : Event} {contents : List UInt8} (hread : before.read source = .ok contents)
    (hinstall : before.installHeader root configHeader source = (after, .ok event)) :
    after.read (root.join ⟨configHeader⟩) = .ok (configure contents) := by
  obtain ⟨origin, hlocate, hcontents⟩ := read_eq_ok_iff.mp hread
  have hinstalls := installHeader_spec hinstall
  have htarget := hinstalls.targets _ (List.mem_singleton_self _)
  have horigin : (after.transfer root (configHeader, source)).origin = origin :=
    hinstalls.origin_eq hlocate
  refine read_eq_ok_iff.mpr ⟨_, htarget, ?_⟩
  rw [hinstalls.contents]
  simp [Transfer.performEach, Transfer.perform, horigin, hcontents, Transfer.bytes,
    show (after.transfer root (configHeader, source)).name = configHeader from rfl]

end FileSystem

/-- To configure a header leaves alone which names it includes.  When a search
has found the configuration header, and its file holds the same bytes when it is
installed, the installed header includes exactly the names that the search has
read. -/
theorem includes_configure (contents : List UInt8) :
    includes (Utf8.decode (configure contents)) = includes (Utf8.decode contents) ∧
      ∀ (tree : SourceTree) (tables : Tables) (found : Located) (before after : FileSystem)
        (root : Path) (event : Event),
        tree.search tables configHeader = .ok found →
          before.read found.location = tree.files.read found.location →
            before.installHeader root configHeader found.location = (after, .ok event) →
              after.dependencies (root.join ⟨configHeader⟩) = .ok found.includes := by
  refine ⟨dependencies_configure contents, ?_⟩
  intro tree tables found before after root event hsearch hsame hinstall
  obtain ⟨held, hread, hincludes⟩ :=
    FileSystem.dependencies_eq_ok (SourceTree.search_eq_ok hsearch).2
  have hinstalled := FileSystem.read_installed_configHeader (hsame.trans hread) hinstall
  rw [FileSystem.dependencies, hinstalled, ← hincludes, ← dependencies_configure held]
  rfl

/-- A configuration header with a definition between two included names, one of
them behind a byte that belongs to no character. -/
def unconfiguredTree : SourceTree where
  files := {
    root := .directory [(⟨"bits", by decide⟩, .directory [(⟨"c++config", by decide⟩,
      .file (Utf8.encode "#include <a>\r\n#define _GLIBCXX_INLINE_VERSION 1\r\n" ++
        0xFF :: Utf8.encode "\n#include <b>"))])]
    current := []
    distinct := by
      refine .directory (by decide) (List.forall_mem_singleton.mpr ?_)
      exact .directory (by decide) (List.forall_mem_singleton.mpr .file)
  }
  root := ⟨"/"⟩

theorem includes_configure_unconfigured :
    unconfiguredTree.search .standard configHeader =
        .ok ⟨⟨"/bits/c++config"⟩, ["a", "b"]⟩ ∧
      (unconfiguredTree.files.installHeader ⟨"p"⟩ configHeader ⟨"/bits/c++config"⟩).2 =
        .ok (.patched ⟨"/bits/c++config"⟩ ⟨"p/bits/c++config.h"⟩) ∧
      (unconfiguredTree.files.installHeader ⟨"p"⟩ configHeader
          ⟨"/bits/c++config"⟩).1.dependencies ⟨"p/bits/c++config.h"⟩ = .ok ["a", "b"] := by
  have hsearch : unconfiguredTree.search .standard configHeader =
      .ok ⟨⟨"/bits/c++config"⟩, ["a", "b"]⟩ := by decide +kernel
  have hinstall : (unconfiguredTree.files.installHeader ⟨"p"⟩ configHeader
      ⟨"/bits/c++config"⟩).2 = .ok (.patched ⟨"/bits/c++config"⟩ ⟨"p/bits/c++config.h"⟩) := by
    decide +kernel
  exact ⟨hsearch, hinstall,
    (includes_configure []).2 _ _ _ unconfiguredTree.files _ ⟨"p"⟩ _ hsearch rfl
      (Prod.ext rfl hinstall)⟩

end Freestanding
