import Freestanding.Proofs.Containment
import Freestanding.Proofs.ExtractionOutcome
import Freestanding.Proofs.RepeatedInstallation
import Freestanding.Proofs.UndisturbedTree

/-!
# Repeated extractions

In a file system without links an extraction can be repeated and changes nothing
then, if the source tree and the install directory lie apart: neither is at or
below the other.  The directories that an extraction makes on the way to its own
may well be on the way to the source tree too.

The first extraction leaves the source tree as it was, so the second one resolves
the same headers.  No header is installed in the source tree, so the second
installation does not change what the first one left.
-/

namespace Freestanding

/-- Whether neither of two ways down is at or below the other. -/
def Apart {α : Type} (way other : List α) : Prop :=
  ¬ way <+: other ∧ ¬ other <+: way

instance {α : Type} [DecidableEq α] (way other : List α) : Decidable (Apart way other) :=
  inferInstanceAs (Decidable (_ ∧ _))

theorem Apart.not_isPrefix {α : Type} {way other below : List α} (hapart : Apart way other)
    (hbelow : way <+: below) : ¬ other <+: below :=
  fun hmeets => (List.prefix_or_prefix_of_prefix hbelow hmeets).elim hapart.1 hapart.2

/-- Of two paths that lead down, the one that leads to a location above is the
beginning of the other. -/
theorem Path.isPrefix_of_lead? {path other : Path} {start base location : Location}
    (hpath : ∀ component ∈ path.components, component.IsNormal)
    (hother : ∀ component ∈ other.components, component.IsNormal)
    (hbase : path.lead? start = some base) (hlocation : other.lead? start = some location)
    (habove : base <+: location) : path.components <+: other.components := by
  obtain ⟨names, rfl, hnames⟩ := exists_names_of_foldlM_lead? hpath hbase
  obtain ⟨others, rfl, hothers⟩ := exists_names_of_foldlM_lead? hother hlocation
  rw [hnames, hothers]
  exact ((List.prefix_append_right_inj start).mp habove).map _

theorem Path.apart_of_lead? {path other : Path} {start base location : Location}
    (hpath : ∀ component ∈ path.components, component.IsNormal)
    (hother : ∀ component ∈ other.components, component.IsNormal)
    (hbase : path.lead? start = some base) (hlocation : other.lead? start = some location)
    (hapart : Apart path.components other.components) : Apart base location :=
  ⟨mt (isPrefix_of_lead? hpath hother hbase hlocation) hapart.1,
    mt (isPrefix_of_lead? hother hpath hlocation hbase) hapart.2⟩

namespace SourceTree

variable {tree : SourceTree} {tables : Tables} {headers : List String} {set : HeaderSet}

/-- The files that a resolution locates are entries of the tree. -/
theorem exists_isEntry_of_mem_entries (hresolve : (tree.resolve tables headers).outcome = .ok set)
    {entry : String × Path} (hentry : entry ∈ set.entries) :
    ∃ location, tree.IsEntry location ∧ entry.2 = tree.path location := by
  obtain ⟨_, hfrontier⟩ := exists_frontier_of_resolve hresolve
  obtain ⟨found, hsearch, hlocation⟩ :=
    hfrontier.location entry.1 entry.2 (HeaderSet.get?_of_mem_entries hentry)
  obtain ⟨location, hfind, hpath⟩ := Option.map_eq_some_iff.mp (search_eq_ok hsearch).1
  exact ⟨location, mem_locations_iff.mp (List.mem_of_find?_eq_some hfind),
    (hpath.trans hlocation).symm⟩

theorem exists_locate_root (hresolve : (tree.resolve tables headers).outcome = .ok set)
    (hnonempty : headers ≠ []) : ∃ base, tree.files.locate tree.root = .ok base := by
  obtain ⟨name, hname⟩ := List.exists_mem_of_ne_nil headers hnonempty
  obtain ⟨_, hfrontier⟩ := exists_frontier_of_resolve hresolve
  obtain ⟨entry, hentry, -⟩ := List.mem_map.mp (hfrontier.isClosed_names.headers name hname)
  obtain ⟨location, hlocation, -⟩ := exists_isEntry_of_mem_entries hresolve hentry
  obtain ⟨base, hlocate, -⟩ := hlocation.reached
  exact ⟨base, hlocate⟩

/-- The files that a resolution locates lie outside of everything that lies apart
from the root of the tree. -/
theorem isOutside_of_mem_entries (hresolve : (tree.resolve tables headers).outcome = .ok set)
    {start base location : Location} {other : Path} (hlead : tree.root.lead? start = some base)
    (hother : other.lead? start = some location) (hapart : Apart base location)
    {entry : String × Path} (hentry : entry ∈ set.entries) : entry.2.IsOutside other start := by
  intro origin horigin directory hdirectory
  obtain ⟨below, -, hsource⟩ := exists_isEntry_of_mem_entries hresolve hentry
  rw [hsource, lead?_path hlead, Option.mem_def, Option.some.injEq] at horigin
  obtain rfl : location = directory := Option.some.inj (hother.symm.trans hdirectory)
  rw [← horigin]
  exact hapart.not_isPrefix (List.prefix_append _ _)

end SourceTree

namespace FileSystem

variable {files : FileSystem} {path root : Path} {base installed : Location} {set : HeaderSet}
  {count : Nat}

/-- An installation leaves everything alone that lies apart from its directory. -/
theorem agreesAt_install (hlinks : Kinds.IsLinkFree files.kind?)
    (hnormal : ∀ component ∈ path.components, component.IsNormal)
    (hplain : ∀ name ∈ set.names, (Path.mk name).IsPlain)
    (hrun : (files.install set path).outcome = .ok ())
    (hinstalled : (path.join ⟨installDirectory⟩).lead? files.current = some installed)
    (hbase : files.kind? base ≠ none) (hapart : Apart base installed) :
    files.AgreesAt (files.install set path).files base := by
  have hinstalls := install_spec hrun
  refine ⟨hinstalls.keeps.current, ?_, ?_⟩
  · intro location hnear
    cases hkind : files.kind? location with
    | some kind => exact hinstalls.keeps.kinds _ _ hkind
    | none =>
        -- On the way to the base there are directories, so this is below it.
        have hlocation : base <+: location := by
          refine hnear.resolve_left fun hway => ?_
          by_cases hsame : location = base
          · exact hbase (hsame ▸ hkind)
          · simp [kind?_of_isPrefix hbase hway hsame] at hkind
        rw [← hkind]
        refine kind?_install hlinks hnormal hplain hrun hinstalled ?_ ?_
        · exact fun hway => hapart.1 (hlocation.trans hway)
        · intro name hname target hlead hway
          exact hapart.not_isPrefix (hlocation.trans hway)
            (Path.isPrefix_of_lead?_join (hplain name hname).normal hinstalled hlead)
  · intro location hlocation
    have hlinksAfter := (changesWithin_install hlinks set path).isLinkFree
    have hplainEntry (entry : String × Path) (hentry : entry ∈ set.entries) :
        (Path.mk entry.1).IsPlain := hplain entry.1 (List.mem_map_of_mem hentry)
    rw [hinstalls.contents]
    refine Transfer.performEach_of_forall_ne ?_
    intro transfer htransfer
    obtain ⟨entry, hentry, rfl⟩ := List.mem_map.mp htransfer
    exact hinstalls.target_ne hlinksAfter hplainEntry hinstalled (hapart.not_isPrefix hlocation)
      hentry

/-- In a file system without links, an extraction that succeeds succeeds again
with as many headers, and changes nothing then, if the root of the source tree
and the install directory lead down and neither is at or below the other. -/
theorem extract_isIdempotent (hlinks : Kinds.IsLinkFree files.kind?)
    (hpath : ∀ component ∈ path.components, component.IsNormal)
    (hroot : ∀ component ∈ root.components, component.IsNormal)
    (hapart : Apart root.components (path.join ⟨installDirectory⟩).components)
    (hrun : (files.extract path root).outcome = .ok count) :
    ((files.extract path root).files.extract path root).outcome = .ok count ∧
      ((files.extract path root).files.extract path root).files =
        (files.extract path root).files := by
  obtain ⟨set, hresolve, -, -⟩ := extract_spec hrun
  obtain ⟨hfiles, houtcome⟩ := extract_of_resolve path hresolve
  obtain ⟨hinstall, hsize⟩ := houtcome.mp hrun
  have hplain (name : String) (hname : name ∈ set.names) : (Path.mk name).IsPlain :=
    SourceTree.isPlain_of_mem_names (by decide) isPlain_of_mem_standard_aliases hresolve hname
  obtain ⟨installed, hinstalled, -⟩ := lead?_of_install hlinks hinstall
  obtain ⟨base, hlocate⟩ := SourceTree.exists_locate_root hresolve (by decide)
  have hlead : root.lead? files.current = some base := lead?_of_locate hlinks hlocate
  have hfits := fits_of_resolve (locate_eq_ok_iff.mp hlocate)
  have hlocations : Apart base installed :=
    Path.apart_of_lead? hroot (Path.isNormal_of_mem_join hpath isPlain_installDirectory.normal)
      hlead hinstalled hapart
  have hkept : (SourceTree.mk files root).IsKept (files.install set path).files base :=
    ⟨hlinks, hroot, hlead,
      agreesAt_install hlinks hpath hplain hinstall hinstalled hfits.1 hlocations⟩
  have hsources : ∀ entry ∈ set.entries,
      entry.2.IsOutside (path.join ⟨installDirectory⟩) files.current :=
    fun entry hentry =>
      SourceTree.isOutside_of_mem_entries hresolve hlead hinstalled hlocations hentry
  obtain ⟨hagain, hsame⟩ := install_install_of_isOutside hlinks hplain hsources hinstall
  have hresolveAgain : ((SourceTree.mk (files.install set path).files root).resolve .standard
      freestandingHeaders).outcome = .ok set := by
    rw [hkept.resolve_eq]
    exact hresolve
  obtain ⟨hfilesAgain, houtcomeAgain⟩ := extract_of_resolve path hresolveAgain
  rw [hfiles]
  exact ⟨houtcomeAgain.mpr ⟨hagain, hsize⟩, hfilesAgain.trans hsame⟩

/-- A source tree beside what is left of an older installation. -/
def siblingFiles : FileSystem :=
  [("a/src/atomic", "#include <bits/c++config.h>\n"), ("a/src/cstdarg", ""),
    ("a/src/cstddef", ""), ("a/src/cstdlib", ""), ("a/src/initializer_list", ""),
    ("a/src/limits", ""), ("a/src/type_traits", ""),
    ("a/src/bits/c++config", "#define _GLIBCXX_INLINE_VERSION 1\n"),
    ("a/include/c++/atomic", "older")].foldl
    (fun files entry => (files.write ⟨entry.1⟩ (Utf8.encode entry.2)).toOption.getD files)
    ((FileSystem.empty.makeDirectories ⟨"a/src/bits"⟩).1.makeDirectories ⟨"a/include/c++"⟩).1

theorem extract_isIdempotent_siblings :
    Kinds.IsLinkFree siblingFiles.kind? ∧
      (∀ component ∈ (Path.mk "a").components, component.IsNormal) ∧
      (∀ component ∈ (Path.mk "a/src").components, component.IsNormal) ∧
      Apart (Path.mk "a/src").components ((Path.mk "a").join ⟨installDirectory⟩).components ∧
      (siblingFiles.extract ⟨"a"⟩ ⟨"a/src"⟩).outcome = .ok 8 ∧
      ((siblingFiles.extract ⟨"a"⟩ ⟨"a/src"⟩).files.extract ⟨"a"⟩ ⟨"a/src"⟩).outcome = .ok 8 ∧
      ((siblingFiles.extract ⟨"a"⟩ ⟨"a/src"⟩).files.extract ⟨"a"⟩ ⟨"a/src"⟩).files =
        (siblingFiles.extract ⟨"a"⟩ ⟨"a/src"⟩).files := by
  have hlinks : Kinds.IsLinkFree siblingFiles.kind? := by decide +kernel
  have hpath : ∀ component ∈ (Path.mk "a").components, component.IsNormal := by decide +kernel
  have hroot : ∀ component ∈ (Path.mk "a/src").components, component.IsNormal := by
    decide +kernel
  have hapart :
      Apart (Path.mk "a/src").components ((Path.mk "a").join ⟨installDirectory⟩).components := by
    decide +kernel
  have hrun : (siblingFiles.extract ⟨"a"⟩ ⟨"a/src"⟩).outcome = .ok 8 := by decide +kernel
  exact ⟨hlinks, hpath, hroot, hapart, hrun,
    extract_isIdempotent hlinks hpath hroot hapart hrun⟩

end FileSystem

end Freestanding
