import Freestanding.Proofs.ByteLines
import Freestanding.Proofs.IncludeGraph

/-!
# Scanning one line at a time

What a line of a header includes is found in its own bytes.  Decoding begins
anew behind a line feed, even if the bytes before it break off in the middle of a
character, and a carriage return in front of it makes no difference.  So a header
includes what its lines include, each of them taken alone, without later repeats.

Two headers with a line feed between them therefore include what the first one
includes, and then what the second one adds.
-/

namespace Freestanding

variable {line contents : List UInt8} {name : String}

/-- A line on its own includes one name at most. -/
theorem dependencies_of_not_mem (hline : 0x0A ∉ line) :
    dependencies line = ((lineName? line).map String.ofList).toList := by
  rw [dependencies_eq, pieces_of_not_mem hline]
  cases hname : lineName? line with
  | none => simp [hname]
  | some name => simp [hname, List.eraseDups_cons]

/-- A header includes what its lines include. -/
theorem dependencies_eq_flatMap (contents : List UInt8) :
    dependencies contents = ((pieces 0x0A contents).flatMap dependencies).eraseDups := by
  rw [dependencies_eq, List.filterMap_eq_flatMap_toList]
  congr 1
  apply List.flatMap_congr
  intro line hline
  rw [dependencies_of_not_mem (not_mem_of_mem_pieces hline)]

theorem dependencies_append_feed (before after : List UInt8) :
    dependencies (before ++ 0x0A :: after) =
      dependencies before ++ (dependencies after).filter (· ∉ dependencies before) := by
  rw [dependencies_eq, pieces_append_cons, List.filterMap_append,
    eraseDups_append_filter, ← dependencies_eq, ← dependencies_eq]
  simp only [dependencies_eq before, List.mem_eraseDups]

theorem mem_dependencies_iff :
    name ∈ dependencies contents ↔ ∃ line ∈ pieces 0x0A contents, dependencies line = [name] := by
  rw [dependencies_eq_flatMap, List.mem_eraseDups, List.mem_flatMap]
  refine exists_congr fun line => and_congr_right fun hline => ?_
  rw [dependencies_of_not_mem (not_mem_of_mem_pieces hline)]
  cases (lineName? line).map String.ofList with
  | none => simp
  | some other => simp [eq_comm]

/-- A header that is two headers with a line feed between them includes what the
first one includes and then, in order, what only the second one includes; so it
is when they are read from files.  Any header includes what its lines between line
feeds include, each of them alone and whatever the bytes of the others are, and a
line that includes a name includes no other. -/
theorem dependencies_isLocal (before after : List UInt8) :
    dependencies (before ++ [0x0A] ++ after) =
        dependencies before ++ (dependencies after).filter (· ∉ dependencies before) ∧
      (∀ contents,
        dependencies contents = ((pieces 0x0A contents).flatMap dependencies).eraseDups ∧
          ∀ name, name ∈ dependencies contents ↔
            ∃ line ∈ pieces 0x0A contents, dependencies line = [name]) ∧
      ∀ (files : FileSystem) (whole first second : Path),
        files.read whole = .ok (before ++ [0x0A] ++ after) → files.read first = .ok before →
          files.read second = .ok after →
            ∃ names others, files.dependencies first = .ok names ∧
              files.dependencies second = .ok others ∧
                files.dependencies whole = .ok (names ++ others.filter (· ∉ names)) := by
  have hjoined := dependencies_append_feed before after
  rw [← List.singleton_append, ← List.append_assoc] at hjoined
  refine ⟨hjoined, fun contents => ?_, ?_⟩
  · exact ⟨dependencies_eq_flatMap contents, fun name => mem_dependencies_iff⟩
  · intro files whole first second hwhole hfirst hsecond
    refine ⟨dependencies before, dependencies after, ?_, ?_, ?_⟩
    · exact FileSystem.dependencies_eq_ok_iff.mpr ⟨before, hfirst, rfl⟩
    · exact FileSystem.dependencies_eq_ok_iff.mpr ⟨after, hsecond, rfl⟩
    · exact FileSystem.dependencies_eq_ok_iff.mpr ⟨_, hwhole, hjoined⟩

/-- Three files: the bytes of the first break off inside a character, once in a
name and once at the end, and the third is the first two with a line feed between
them. -/
def brokenOffFiles : FileSystem where
  root := .directory [
    (⟨"first", by decide⟩, .file (Utf8.encode "#include <a>\r\n#include <b" ++
      0xE2 :: 0x82 :: Utf8.encode ">" ++ [0xF0, 0x9F])),
    (⟨"second", by decide⟩, .file (Utf8.encode "#include <c>\n#include <a>")),
    (⟨"whole", by decide⟩, .file (Utf8.encode "#include <a>\r\n#include <b" ++
      0xE2 :: 0x82 :: Utf8.encode ">" ++ [0xF0, 0x9F] ++ [0x0A] ++
        Utf8.encode "#include <c>\n#include <a>"))]
  current := []
  distinct := by
    refine .directory (by decide) ?_
    simp only [List.mem_cons, List.not_mem_nil, or_false, forall_eq_or_imp, forall_eq]
    exact ⟨.file, .file, .file⟩

theorem dependencies_isLocal_brokenOff :
    brokenOffFiles.dependencies ⟨"/first"⟩ = .ok ["a", "b\uFFFD"] ∧
      brokenOffFiles.dependencies ⟨"/second"⟩ = .ok ["c", "a"] ∧
      brokenOffFiles.dependencies ⟨"/whole"⟩ = .ok ["a", "b\uFFFD", "c"] := by
  have hfirst : brokenOffFiles.dependencies ⟨"/first"⟩ = .ok ["a", "b\uFFFD"] := by
    decide +kernel
  have hsecond : brokenOffFiles.dependencies ⟨"/second"⟩ = .ok ["c", "a"] := by decide +kernel
  obtain ⟨names, others, hnames, hothers, hwhole⟩ :=
    (dependencies_isLocal _ _).2.2 brokenOffFiles ⟨"/whole"⟩ ⟨"/first"⟩ ⟨"/second"⟩ rfl rfl rfl
  obtain rfl := Except.ok.inj (hfirst.symm.trans hnames)
  obtain rfl := Except.ok.inj (hsecond.symm.trans hothers)
  exact ⟨hfirst, hsecond, hwhole⟩

end Freestanding
