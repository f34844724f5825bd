import Freestanding.Extraction
import Freestanding.Proofs.InstallationRun
import Freestanding.Proofs.ResolutionOutcome
import Freestanding.Proofs.SettingLines

/-!
# The outcome of an extraction

The source tree and the directory of installation may overlap in any way, so
that headers are installed over one another and over headers that are still to
be installed.  Nevertheless an extraction that succeeds leaves a set of files
that includes nothing but its own names and what the environment provides: no
transfer of contents brings in a name that was not included before.

The located files themselves are not safe.  A located file that destinations
lead to holds in the end what the last of them is given, and a header other than
the configuration header that is installed over itself is emptied.
-/

namespace Freestanding

/-- Whether everything that contents include is provided or has a location. -/
def HeaderSet.Covers (set : HeaderSet) (tables : Tables) (contents : List UInt8) : Prop :=
  ∀ required ∈ dependencies contents, required ∈ tables.provided ∨ required ∈ set.names

theorem Transfer.covers_bytes {set : HeaderSet} {tables : Tables} (transfer : Transfer)
    (contents : List UInt8) (hcovers : set.Covers tables contents) :
    set.Covers tables (transfer.bytes contents) := by
  unfold bytes
  split
  · unfold HeaderSet.Covers
    rw [dependencies_configure]
    exact hcovers
  · split
    · have hempty : dependencies [] = [] := rfl
      simp [HeaderSet.Covers, hempty]
    · exact hcovers

/-- The files that a resolution locates are there, and what they include is
covered. -/
theorem SourceTree.holds_of_mem_entries {tree : SourceTree} {tables : Tables}
    {headers : List String} {set : HeaderSet}
    (hresolve : (tree.resolve tables headers).outcome = .ok set) {entry : String × Path}
    (hentry : entry ∈ set.entries) :
    ∃ origin, tree.files.locate entry.2 = .ok origin ∧
      Transfer.Holds (set.Covers tables) tree.files.contents? origin := by
  obtain ⟨_, hfrontier⟩ := exists_frontier_of_resolve hresolve
  have hget := HeaderSet.get?_of_mem_entries hentry
  have hname : entry.1 ∈ set.names := List.mem_map_of_mem hentry
  obtain ⟨found, hsearch, hlocation⟩ := hfrontier.location entry.1 entry.2 hget
  have hdependencies := (search_eq_ok hsearch).2
  rw [hlocation] at hdependencies
  obtain ⟨contents, hread, hincludes⟩ := FileSystem.dependencies_eq_ok hdependencies
  obtain ⟨origin, hlocate, hcontents⟩ := FileSystem.read_eq_ok_iff.mp hread
  refine ⟨origin, hlocate, contents, hcontents, ?_⟩
  intro required hrequired
  rw [hincludes] at hrequired
  by_cases hprovided : required ∈ tables.provided
  · exact .inl hprovided
  · exact .inr (hfrontier.isClosed_names.included entry.1 hname entry.2 hget _ hdependencies
      required hrequired hprovided)

namespace FileSystem

variable {files : FileSystem} {path root : Path} {count : Nat} {set : HeaderSet}

theorem extract_of_resolve (path : Path)
    (hresolve : ((SourceTree.mk files root).resolve .standard freestandingHeaders).outcome =
      .ok set) :
    (files.extract path root).files = (files.install set path).files ∧
      ((files.extract path root).outcome = .ok count ↔
        (files.install set path).outcome = .ok () ∧ set.size = count) := by
  unfold extract
  simp only [hresolve]
  cases (files.install set path).outcome <;> simp

/-- An extraction that succeeds has resolved the freestanding headers and
installed them all. -/
theorem extract_spec (hrun : (files.extract path root).outcome = .ok count) :
    ∃ set, ((SourceTree.mk files root).resolve .standard freestandingHeaders).outcome =
        .ok set ∧
      count = set.size ∧
      files.InstallsEach (files.extract path root).files (path.join ⟨installDirectory⟩)
        set.entries := by
  cases hresolve : ((SourceTree.mk files root).resolve .standard freestandingHeaders).outcome with
  | error error =>
      unfold extract at hrun
      simp [hresolve] at hrun
  | ok set =>
      obtain ⟨hfiles, houtcome⟩ := extract_of_resolve path hresolve
      obtain ⟨hinstall, hsize⟩ := houtcome.mp hrun
      rw [hfiles]
      exact ⟨set, rfl, hsize.symm, install_spec hinstall⟩

/-- After an extraction that succeeds every resolved header is a file below the
install directory, and what that file includes is provided or resolved too. -/
theorem extract_isSelfContained (hrun : (files.extract path root).outcome = .ok count) :
    ∃ set, ((SourceTree.mk files root).resolve .standard freestandingHeaders).outcome =
        .ok set ∧
      ∀ name ∈ set.names, ∃ contents includes,
        (files.extract path root).files.node?
            ((path.join ⟨installDirectory⟩).join ⟨name⟩) = some (.file contents) ∧
          (files.extract path root).files.dependencies
              ((path.join ⟨installDirectory⟩).join ⟨name⟩) = .ok includes ∧
          ∀ required ∈ includes,
            required ∈ Tables.standard.provided ∨ required ∈ set.names := by
  obtain ⟨set, hresolve, -, hinstalls⟩ := extract_spec hrun
  refine ⟨set, hresolve, ?_⟩
  intro name hname
  obtain ⟨entry, hentry, rfl⟩ := List.mem_map.mp hname
  have hlocate := hinstalls.targets entry hentry
  have hholds := hinstalls.holds_targets Transfer.covers_bytes
    (fun other hother => SourceTree.holds_of_mem_entries hresolve hother) hentry
  obtain ⟨contents, hcontents, hcovers⟩ := hholds
  refine ⟨contents, Freestanding.dependencies contents, ?_, ?_, hcovers⟩
  · rw [node?, hlocate]
    exact contents?_eq_some_iff.mp hcontents
  · rw [FileSystem.dependencies, read_eq_ok_iff.mpr ⟨_, hlocate, hcontents⟩]
    rfl

/-- The freestanding headers in a tree where an installation below its root
would put them. -/
def installedTree : SourceTree where
  files := {
    root := .directory [(⟨"include", by decide⟩, .directory [(⟨"c++", by decide⟩, .directory
      [(⟨"atomic", by decide⟩, .file (Utf8.encode "#include <limits>\n")),
        (⟨"cstdarg", by decide⟩, .file []), (⟨"cstddef", by decide⟩, .file []),
        (⟨"cstdlib", by decide⟩, .file []), (⟨"initializer_list", by decide⟩, .file []),
        (⟨"limits", by decide⟩, .file []), (⟨"type_traits", by decide⟩, .file [])])])]
    current := []
    distinct := by
      refine .directory (by decide) (List.forall_mem_singleton.mpr ?_)
      refine .directory (by decide) (List.forall_mem_singleton.mpr ?_)
      refine .directory (by decide) ?_
      simp only [List.mem_cons, List.not_mem_nil, or_false]
      rintro entry (rfl | rfl | rfl | rfl | rfl | rfl | rfl) <;> exact .file
  }
  root := ⟨"."⟩

def installedSet : HeaderSet :=
  .insertMany .empty
    [("atomic", ⟨"./include/c++/atomic"⟩), ("cstdarg", ⟨"./include/c++/cstdarg"⟩),
      ("cstddef", ⟨"./include/c++/cstddef"⟩), ("cstdlib", ⟨"./include/c++/cstdlib"⟩),
      ("initializer_list", ⟨"./include/c++/initializer_list"⟩),
      ("limits", ⟨"./include/c++/limits"⟩), ("type_traits", ⟨"./include/c++/type_traits"⟩)]

theorem resolve_installedTree :
    (installedTree.resolve .standard freestandingHeaders).outcome = .ok installedSet := by
  decide +kernel

theorem extract_isSelfContained_elsewhere :
    (installedTree.files.extract ⟨"p"⟩ ⟨"."⟩).outcome = .ok 7 ∧
      ∃ set, (installedTree.resolve .standard freestandingHeaders).outcome = .ok set ∧
        ∀ name ∈ set.names, ∃ contents includes,
          (installedTree.files.extract ⟨"p"⟩ ⟨"."⟩).files.node?
              (((⟨"p"⟩ : Path).join ⟨installDirectory⟩).join ⟨name⟩) = some (.file contents) ∧
            (installedTree.files.extract ⟨"p"⟩ ⟨"."⟩).files.dependencies
                (((⟨"p"⟩ : Path).join ⟨installDirectory⟩).join ⟨name⟩) = .ok includes ∧
            ∀ required ∈ includes,
              required ∈ Tables.standard.provided ∨ required ∈ set.names := by
  have hrun : (installedTree.files.extract ⟨"p"⟩ ⟨"."⟩).outcome = .ok 7 := by decide +kernel
  exact ⟨hrun, extract_isSelfContained hrun⟩

/-! ### What becomes of the located files -/

/-- The transfers of an extraction, where paths lead as in a file system. -/
def transfers (files : FileSystem) (path : Path) (set : HeaderSet) : List Transfer :=
  set.entries.map (files.transfer (path.join ⟨installDirectory⟩))

/-- An extraction that succeeds keeps the contents of all located files exactly
if each of them that destinations lead to is given, by the last of these, the
bytes that it held. -/
theorem extract_keeps_located_iff
    (hrun : (files.extract path root).outcome = .ok count)
    (hresolve : ((SourceTree.mk files root).resolve .standard freestandingHeaders).outcome =
      .ok set) :
    (∀ name source, set.get? name = some source →
        (files.extract path root).files.read source = files.read source) ↔
      ∀ earlier transfer later,
        (files.extract path root).files.transfers path set = earlier ++ transfer :: later →
        (∃ other ∈ (files.extract path root).files.transfers path set,
          other.origin = transfer.target) →
        (∀ other ∈ later, other.target ≠ transfer.target) →
        (Transfer.performEach earlier files.contents? transfer.origin).map transfer.bytes =
          files.contents? transfer.target := by
  obtain ⟨other, hother, -, hinstalls⟩ := extract_spec hrun
  obtain rfl : other = set := by
    rw [hresolve, Except.ok.injEq] at hother
    exact hother.symm
  rw [← Transfer.performEach_keeps_origins_iff, transfers, ← hinstalls.contents]
  have hkept : ∀ entry ∈ other.entries,
      (files.extract path root).files.read entry.2 = files.read entry.2 ↔
        (files.extract path root).files.contents?
            ((files.extract path root).files.transfer (path.join ⟨installDirectory⟩) entry).origin =
          files.contents?
            ((files.extract path root).files.transfer (path.join ⟨installDirectory⟩) entry).origin := by
    intro entry hentry
    obtain ⟨origin, hlocate, contents, hcontents, -⟩ :=
      SourceTree.holds_of_mem_entries hresolve hentry
    rw [hinstalls.origin_eq hlocate]
    exact hinstalls.keeps.read_eq_iff hlocate hcontents
  constructor
  · intro hreads transfer htransfer
    obtain ⟨entry, hentry, rfl⟩ := List.mem_map.mp htransfer
    exact (hkept entry hentry).mp
      (hreads entry.1 entry.2 (HeaderSet.get?_of_mem_entries hentry))
  · intro horigins name source hget
    have hentry : (name, source) ∈ other.entries := mem_of_lookup hget
    exact (hkept _ hentry).mpr (horigins _ (List.mem_map_of_mem hentry))

/-- A header that is installed over itself is lost, although the extraction
succeeds. -/
theorem extract_loses_located :
    (installedTree.resolve .standard freestandingHeaders).outcome = .ok installedSet ∧
      installedSet.get? "atomic" = some ⟨"./include/c++/atomic"⟩ ∧
      (installedTree.files.extract ⟨"."⟩ ⟨"."⟩).outcome = .ok 7 ∧
      installedTree.files.read ⟨"./include/c++/atomic"⟩ =
        .ok (Utf8.encode "#include <limits>\n") ∧
      (installedTree.files.extract ⟨"."⟩ ⟨"."⟩).files.read ⟨"./include/c++/atomic"⟩ = .ok [] :=
  ⟨resolve_installedTree, by decide +kernel⟩

theorem extract_keeps_located_iff_overlapping :
    (installedTree.files.extract ⟨"."⟩ ⟨"."⟩).outcome = .ok 7 ∧
      (installedTree.resolve .standard freestandingHeaders).outcome = .ok installedSet ∧
      ((∀ name source, installedSet.get? name = some source →
          (installedTree.files.extract ⟨"."⟩ ⟨"."⟩).files.read source =
            installedTree.files.read source) ↔
        ∀ earlier transfer later,
          (installedTree.files.extract ⟨"."⟩ ⟨"."⟩).files.transfers ⟨"."⟩ installedSet =
            earlier ++ transfer :: later →
          (∃ other ∈ (installedTree.files.extract ⟨"."⟩ ⟨"."⟩).files.transfers ⟨"."⟩
            installedSet, other.origin = transfer.target) →
          (∀ other ∈ later, other.target ≠ transfer.target) →
          (Transfer.performEach earlier installedTree.files.contents? transfer.origin).map
              transfer.bytes =
            installedTree.files.contents? transfer.target) := by
  have hrun : (installedTree.files.extract ⟨"."⟩ ⟨"."⟩).outcome = .ok 7 := by decide +kernel
  exact ⟨hrun, resolve_installedTree, extract_keeps_located_iff hrun resolve_installedTree⟩

end FileSystem

end Freestanding
