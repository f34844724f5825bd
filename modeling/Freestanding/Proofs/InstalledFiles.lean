import Freestanding.Proofs.Containment
import Freestanding.Proofs.ExactInstallation
import Freestanding.Proofs.ExtractionOutcome
import Freestanding.Proofs.WaysDown
import Mathlib.Data.Finset.Card

/-!
# How many files an extraction installs

An extraction counts the names of the headers that it has resolved.  Names that
are spelled differently and have the same components are installed at one file,
so the files below the install directory are as many as the components of these
names, provided that nothing was there before.  The count is theirs exactly if no
two names are spellings of one path.
-/

namespace Freestanding

theorem HeaderSet.nodup_names (set : HeaderSet) : set.names.Nodup :=
  List.pairwise_map.mpr (set.increasing.imp fun hless => ne_of_lt hless)

theorem HeaderSet.length_names (set : HeaderSet) : set.names.length = set.size :=
  List.length_map _

theorem Path.check_of_join {path below : Path} (hrelative : below.isAbsolute = false)
    (hnonempty : path.text ≠ "") (hcheck : (path.join below).check = .ok ()) :
    path.check = .ok () := by
  obtain ⟨gap, -, htext⟩ := path.text_join hrelative
  refine check_of_isPrefix ⟨gap.toList ++ below.text.toList, ?_⟩ hnonempty hcheck
  simp [htext]

namespace FileSystem

/-- How many files lie below a path. -/
def fileCount (files : FileSystem) (path : Path) : Nat :=
  (files.descendants path).countP fun found => found.2.kind = .file

variable {files : FileSystem} {path root : Path} {base place : Location} {set : HeaderSet}
  {count : Nat}

theorem fileCount_eq_card (hlocate : files.locate path = .ok base)
    {ways : Finset (List Component)}
    (hways : ∀ way, way ∈ ways ↔ ∃ location, location ≠ [] ∧
      files.kind? (base ++ location) = some .file ∧
        way = location.map fun name => Component.normal name.text) :
    files.fileCount path = ways.card := by
  have hthere := (fits_of_resolve (locate_eq_ok_iff.mp hlocate)).1
  obtain ⟨node, hnode⟩ : ∃ node, files.root.get? base = some node := by
    unfold kind? at hthere
    exact Option.ne_none_iff_exists'.mp fun hnone => hthere (by simp [hnone])
  have hdistinct := files.distinct.of_get? hnode
  have hdescendants : files.descendants path = node.descendants := by
    simp [descendants, node?, hlocate, hnode]
  have hmem (way : List Component) :
      way ∈ (node.descendants.filter fun found => found.2.kind = .file).map
        (fun found => found.1.map fun name => Component.normal name.text) ↔ way ∈ ways := by
    rw [hways, List.mem_map]
    constructor
    · rintro ⟨⟨location, found⟩, hfound, rfl⟩
      obtain ⟨hdescendant, hfile⟩ := List.mem_filter.mp hfound
      obtain ⟨hnonempty, hget⟩ := hdistinct.mem_descendants_iff.mp hdescendant
      refine ⟨location, hnonempty, ?_, rfl⟩
      rw [kind?_append hnode, hget]
      simpa using hfile
    · rintro ⟨location, hnonempty, hfile, rfl⟩
      rw [kind?_append hnode] at hfile
      obtain ⟨found, hget, hkind⟩ := Option.map_eq_some_iff.mp hfile
      refine ⟨(location, found), List.mem_filter.mpr ⟨?_, by simpa using hkind⟩, rfl⟩
      exact hdistinct.mem_descendants_iff.mpr ⟨hnonempty, hget⟩
  have hnodup : ((node.descendants.filter fun found => found.2.kind = .file).map
      (fun found => found.1.map fun name => Component.normal name.text)).Nodup := by
    refine List.pairwise_map.mpr ?_
    refine (hdistinct.pairwise_descendants.sublist List.filter_sublist).imp ?_
    intro found other hless hsame
    rw [Name.normal_injective.list_map hsame] at hless
    exact List.lt_irrefl _ hless
  calc
    files.fileCount path
      = (node.descendants.filter fun found => found.2.kind = .file).length := by
          rw [fileCount, hdescendants, List.countP_eq_length_filter]
    _ = ((node.descendants.filter fun found => found.2.kind = .file).map
          (fun found => found.1.map fun name => Component.normal name.text)).length :=
          (List.length_map _).symm
    _ = ways.card := by
          rw [← List.toFinset_card_of_nodup hnodup]
          congr 1
          ext way
          rw [List.mem_toFinset, hmem]

/-- What leads to the install directory leads to a location above it. -/
theorem exists_place_of_lead?_join {start : Location}
    (hbase : (path.join ⟨installDirectory⟩).lead? start = some base) :
    ∃ place, path.lead? start = some place ∧ place <+: base ∧ place ≠ base := by
  rw [Path.lead?_join isPlain_installDirectory.normal] at hbase
  obtain ⟨place, hplace, hdown⟩ := Option.bind_eq_some_iff.mp hbase
  obtain ⟨names, rfl, hnames⟩ :=
    exists_names_of_foldlM_lead? isPlain_installDirectory.normal hdown
  refine ⟨place, hplace, List.prefix_append _ _, ?_⟩
  intro hsame
  obtain rfl : names = [] := by simpa using hsame
  exact isPlain_installDirectory.ne_nil hnames

/-- If nothing is at the path of an installation that succeeds, nothing is where
its components lead, unless the path is empty or leads up. -/
theorem kind?_eq_none_of_install (hlinks : Kinds.IsLinkFree files.kind?)
    (hmissing : files.node? path = none)
    (hdown : path.text ≠ "" ∧ .parent ∉ path.components)
    (hrun : (files.install set path).outcome = .ok ())
    (hplace : path.lead? files.current = some place) : files.kind? place = none := by
  obtain ⟨base, hbase, hlocate, hdirectory⟩ := locate_of_install hlinks hrun
  obtain ⟨above, habove, hinitial, hne⟩ := exists_place_of_lead?_join hbase
  obtain rfl : place = above := Option.some.inj (hplace.symm.trans habove)
  by_contra hthere
  obtain ⟨kind, hkind⟩ := Option.ne_none_iff_exists'.mp hthere
  have hafter := kind?_eq_directory_of_isPrefix hdirectory hinitial
  have hkept := (install_spec hrun).keeps.kinds _ _ hkind
  rw [hafter, Option.some.injEq] at hkept
  subst hkept
  have hrelative := Path.isAbsolute_eq_false_of_isNormal isPlain_installDirectory.normal
  have hcheck := Path.check_of_join hrelative hdown.1
    (resolve_eq_ok_iff.mp (locate_eq_ok_iff.mp hlocate)).1
  have hfound := locate_of_lead? hcheck (mt Path.parent_mem_components hdown.2) hplace hkind
  unfold node? at hmissing
  rw [hfound] at hmissing
  simp [kind?, hmissing] at hkind

/-- The files below an install directory that held none are those of the names. -/
theorem exists_name_iff_kind?_install (hlinks : Kinds.IsLinkFree files.kind?)
    (hplain : ∀ name ∈ set.names, (Path.mk name).IsPlain)
    (hrun : (files.install set path).outcome = .ok ())
    (hbase : (path.join ⟨installDirectory⟩).lead? files.current = some base)
    (hfresh : ∀ location, base <+: location → files.kind? location ≠ some .file)
    (way : List Component) :
    (∃ name ∈ set.names, (Path.mk name).components = way) ↔
      ∃ location, location ≠ [] ∧
        (files.install set path).files.kind? (base ++ location) = some .file ∧
          way = location.map fun name => .normal name.text := by
  have hinstalls := install_spec hrun
  have hbelow {entry : String × Path} (hentry : entry ∈ set.entries) :=
    hinstalls.exists_names (changesWithin_install hlinks set path).isLinkFree hbase
      (hplain entry.1 (List.mem_map_of_mem hentry)) hentry
  constructor
  · rintro ⟨name, hname, rfl⟩
    obtain ⟨entry, hentry, rfl⟩ := List.mem_map.mp hname
    obtain ⟨names, htarget, hcomponents⟩ := hbelow hentry
    refine ⟨names, ?_, ?_, hcomponents⟩
    · rintro rfl
      exact (hplain entry.1 hname).ne_nil hcomponents
    · rw [← htarget]
      exact hinstalls.files entry hentry
  · rintro ⟨location, -, hfile, rfl⟩
    obtain ⟨contents, hcontents⟩ := exists_contents_of_kind? hfile
    by_contra hnone
    -- No header is installed here, so the contents were here before.
    rw [hinstalls.contents, Transfer.performEach_of_forall_ne] at hcontents
    · exact hfresh _ (List.prefix_append _ _) (kind?_of_contents? hcontents)
    · intro transfer htransfer hsame
      obtain ⟨entry, hentry, rfl⟩ := List.mem_map.mp htransfer
      obtain ⟨names, htarget, hcomponents⟩ := hbelow hentry
      obtain rfl : names = location := List.append_cancel_left (htarget.symm.trans hsame)
      exact hnone ⟨entry.1, List.mem_map_of_mem hentry, hcomponents⟩

/-- In a file system without links, an extraction below a path at which nothing
is counts the names of the headers that it has resolved, and leaves as many files
below its install directory as these names have different components.  If the
path is empty or leads up, nothing must be where it leads either, whether or not
it can be followed. -/
theorem extract_counts_files (hlinks : Kinds.IsLinkFree files.kind?)
    (hmissing : files.node? path = none)
    (hfree : path.text = "" ∨ .parent ∈ path.components →
      ∀ place, path.lead? files.current = some place → files.kind? place = none)
    (hrun : (files.extract path root).outcome = .ok count) :
    ∃ set, ((SourceTree.mk files root).resolve .standard freestandingHeaders).outcome =
        .ok set ∧
      count = set.names.length ∧
      (files.extract path root).files.fileCount (path.join ⟨installDirectory⟩) =
        (set.names.toFinset.image fun name => (Path.mk name).components).card ∧
      ((files.extract path root).files.fileCount (path.join ⟨installDirectory⟩) = count ↔
        ∀ name ∈ set.names, ∀ other ∈ set.names,
          (Path.mk name).components = (Path.mk other).components → name = other) := by
  obtain ⟨set, hresolve, hsize, -⟩ := extract_spec hrun
  obtain ⟨hfiles, houtcome⟩ := extract_of_resolve path hresolve
  obtain ⟨hinstall, -⟩ := houtcome.mp hrun
  have hplain (name : String) (hname : name ∈ set.names) : (Path.mk name).IsPlain :=
    SourceTree.isPlain_of_mem_names (by decide) isPlain_of_mem_standard_aliases hresolve hname
  obtain ⟨base, hbase, hlocate, hdirectory⟩ := locate_of_install hlinks hinstall
  obtain ⟨place, hplace, habove, -⟩ := exists_place_of_lead?_join hbase
  have hplaceFree : files.kind? place = none := by
    by_cases hdown : path.text = "" ∨ .parent ∈ path.components
    · exact hfree hdown place hplace
    · exact kind?_eq_none_of_install hlinks hmissing (not_or.mp hdown) hinstall hplace
  have hfresh (location : Location) (hbelow : base <+: location) :
      files.kind? location ≠ some .file := by
    intro hfile
    by_cases hsame : place = location
    · simp [← hsame, hplaceFree] at hfile
    · have hthere : files.kind? location ≠ none := by simp [hfile]
      have hway := kind?_of_isPrefix hthere (habove.trans hbelow) hsame
      simp [hplaceFree] at hway
  have hcount : (files.extract path root).files.fileCount (path.join ⟨installDirectory⟩) =
      (set.names.toFinset.image fun name => (Path.mk name).components).card := by
    rw [hfiles]
    refine fileCount_eq_card hlocate fun way => ?_
    rw [← exists_name_iff_kind?_install hlinks hplain hinstall hbase hfresh way]
    simp
  have hnames : set.names.toFinset.card = count := by
    rw [List.toFinset_card_of_nodup set.nodup_names, set.length_names, hsize]
  refine ⟨set, hresolve, hsize.trans set.length_names.symm, hcount, ?_⟩
  rw [hcount, ← hnames, Finset.card_image_iff]
  simp [Set.InjOn]

/-- Headers one of which is included under two spellings of its name, and what is
left of older installations. -/
def spelledFiles : FileSystem where
  root := .directory
    [(.of "src", .directory
        [(.of "atomic", .file (Utf8.encode "#include <bits//x>\n#include <bits/x>\n")),
          (.of "cstdarg", .file []), (.of "cstddef", .file []), (.of "cstdlib", .file []),
          (.of "initializer_list", .file []), (.of "limits", .file []),
          (.of "type_traits", .file []), (.of "bits", .directory [(.of "x", .file [])])]),
      (.of "include", .directory [(.of "c++", .directory
        [(.of "old", .file []), (.of "older", .file [])])]),
      (.of "y", .directory [(.of "include", .directory [(.of "c++", .directory
        [(.of "old", .file []), (.of "older", .file [])])])])]
  current := []
  distinct := by
    have hold : (Node.directory [(.of "old", .file []), (.of "older", .file [])]).Distinct := by
      refine .directory (by decide) ?_
      simp only [List.mem_cons, List.not_mem_nil, or_false]
      rintro entry (rfl | rfl) <;> exact .file
    have hinclude : (Node.directory [(.of "c++", .directory
        [(.of "old", .file []), (.of "older", .file [])])]).Distinct :=
      .directory (by decide) (List.forall_mem_singleton.mpr hold)
    refine .directory (by decide) ?_
    simp only [List.mem_cons, List.not_mem_nil, or_false]
    rintro entry (rfl | rfl | rfl)
    · refine .directory (by decide) ?_
      simp only [List.mem_cons, List.not_mem_nil, or_false]
      rintro entry (rfl | rfl | rfl | rfl | rfl | rfl | rfl | rfl)
      all_goals first
        | exact .file
        | exact .directory (by decide) (List.forall_mem_singleton.mpr .file)
    · exact hinclude
    · exact .directory (by decide) (List.forall_mem_singleton.mpr hinclude)

theorem isLinkFree_spelledFiles : Kinds.IsLinkFree spelledFiles.kind? := by
  decide +kernel

theorem extract_spelledFiles :
    (spelledFiles.extract ⟨"p"⟩ ⟨"src"⟩).outcome = .ok 9 ∧
      (spelledFiles.extract ⟨"p"⟩ ⟨"src"⟩).files.fileCount
        ((Path.mk "p").join ⟨installDirectory⟩) = 8 := by
  decide +kernel

theorem extract_counts_files_spelled :
    Kinds.IsLinkFree spelledFiles.kind? ∧ spelledFiles.node? ⟨"p"⟩ = none ∧
      ((Path.mk "p").text = "" ∨ .parent ∈ (Path.mk "p").components →
        ∀ place, (Path.mk "p").lead? spelledFiles.current = some place →
          spelledFiles.kind? place = none) ∧
      (spelledFiles.extract ⟨"p"⟩ ⟨"src"⟩).outcome = .ok 9 ∧
      ∃ set, ((SourceTree.mk spelledFiles ⟨"src"⟩).resolve .standard
          freestandingHeaders).outcome = .ok set ∧
        9 = set.names.length ∧
        (spelledFiles.extract ⟨"p"⟩ ⟨"src"⟩).files.fileCount
            ((Path.mk "p").join ⟨installDirectory⟩) =
          (set.names.toFinset.image fun name => (Path.mk name).components).card ∧
        ((spelledFiles.extract ⟨"p"⟩ ⟨"src"⟩).files.fileCount
            ((Path.mk "p").join ⟨installDirectory⟩) = 9 ↔
          ∀ name ∈ set.names, ∀ other ∈ set.names,
            (Path.mk name).components = (Path.mk other).components → name = other) := by
  have hmissing : spelledFiles.node? ⟨"p"⟩ = none := by decide +kernel
  have hdown : ¬ ((Path.mk "p").text = "" ∨ .parent ∈ (Path.mk "p").components) := by
    decide +kernel
  obtain ⟨hrun, -⟩ := extract_spelledFiles
  exact ⟨isLinkFree_spelledFiles, hmissing, fun hup => absurd hup hdown, hrun,
    extract_counts_files isLinkFree_spelledFiles hmissing (fun hup => absurd hup hdown) hrun⟩

/-- Two spellings of a name count twice and are one file.  Below a path that can
be followed only once the directories of the installation are there, and below an
empty one, there may be files already. -/
theorem extract_count_differs :
    Kinds.IsLinkFree spelledFiles.kind? ∧
      (spelledFiles.node? ⟨"p"⟩ = none ∧
        (spelledFiles.extract ⟨"p"⟩ ⟨"src"⟩).outcome = .ok 9 ∧
        (spelledFiles.extract ⟨"p"⟩ ⟨"src"⟩).files.fileCount
          ((Path.mk "p").join ⟨installDirectory⟩) = 8) ∧
      (spelledFiles.node? ⟨"x/../y"⟩ = none ∧
        (spelledFiles.extract ⟨"x/../y"⟩ ⟨"src"⟩).outcome = .ok 9 ∧
        (spelledFiles.extract ⟨"x/../y"⟩ ⟨"src"⟩).files.fileCount
          ((Path.mk "x/../y").join ⟨installDirectory⟩) = 10) ∧
      (spelledFiles.node? ⟨""⟩ = none ∧
        (spelledFiles.extract ⟨""⟩ ⟨"src"⟩).outcome = .ok 9 ∧
        (spelledFiles.extract ⟨""⟩ ⟨"src"⟩).files.fileCount
          ((Path.mk "").join ⟨installDirectory⟩) = 10) := by
  have hmissing : spelledFiles.node? ⟨"p"⟩ = none ∧ spelledFiles.node? ⟨"x/../y"⟩ = none ∧
      spelledFiles.node? ⟨""⟩ = none := by
    decide +kernel
  refine ⟨isLinkFree_spelledFiles, ⟨hmissing.1, extract_spelledFiles⟩, ⟨hmissing.2.1, ?_⟩,
    ⟨hmissing.2.2, ?_⟩⟩
  · decide +kernel
  · decide +kernel

end FileSystem

end Freestanding
