import Freestanding.Proofs.InstallationExtent
import Freestanding.Proofs.NameOrder

/-!
# Exact installations

In a file system without links, an installation that succeeds does what its
header set says and nothing else.  The file of a name holds what the source of
the last name with the same components held before, and only the install
directory, the files and the directories on the way to them are touched.

The sources have to lie outside of the install directory, since otherwise an
installation could take what it has installed itself.
-/

namespace Freestanding

theorem Path.text_join_installDirectory (path : Path) :
    (path.join ⟨installDirectory⟩).text ≠ "" := by
  intro hempty
  have hcomponents := path.components_join isPlain_installDirectory.normal
  rw [show path.join ⟨installDirectory⟩ = ⟨""⟩ from congrArg Path.mk hempty] at hcomponents
  exact isPlain_installDirectory.ne_nil (List.append_eq_nil_iff.mp hcomponents.symm).2

/-! ### What an installation leaves -/

/-- Whether a name of a header set is the last one, by its bytes, with the
components of another. -/
def HeaderSet.IsLastSpelling (set : HeaderSet) (name last : String) : Prop :=
  last ∈ set.names ∧ (Path.mk last).components = (Path.mk name).components ∧
    ∀ other ∈ set.names, (Path.mk other).components = (Path.mk name).components →
      other = last ∨ Utf8.encode other < Utf8.encode last

namespace FileSystem

/-- Whether a header set has been installed below a path, which leads to a
location, and nothing else has happened. -/
structure InstallsExactly (before after : FileSystem) (root : Path) (base : Location)
    (set : HeaderSet) : Prop where
  lead : root.lead? before.current = some base
  directory : after.kind? base = some .directory
  installed : ∀ name ∈ set.names, ∃ last source origin contents,
    set.IsLastSpelling name last ∧ set.get? last = some source ∧
      source.lead? before.current = some origin ∧ before.contents? origin = some contents ∧
      (∀ held, before.read source = .ok held → held = contents) ∧
      after.read (root.join ⟨name⟩) =
        .ok (if last = configHeader then configure contents else contents)
  keeps : before.Extends after
  contents : ∀ location,
    (∀ name ∈ set.names, (root.join ⟨name⟩).lead? before.current ≠ some location) →
      after.contents? location = before.contents? location
  kinds : ∀ location, ¬ location <+: base →
    (∀ name ∈ set.names, ∀ target, (root.join ⟨name⟩).lead? before.current = some target →
      ¬ location <+: target) →
    after.kind? location = before.kind? location

variable {files before after : FileSystem} {root path : Path} {base : Location} {set : HeaderSet}

theorem InstallsEach.lead?_origin {entries : List (String × Path)}
    (hinstalls : before.InstallsEach after root entries) (hlinks : Kinds.IsLinkFree after.kind?)
    {entry : String × Path} (hentry : entry ∈ entries) :
    entry.2.lead? before.current = some (after.transfer root entry).origin := by
  rw [← hinstalls.keeps.current]
  exact lead?_of_locate hlinks (hinstalls.origins entry hentry)

theorem InstallsEach.lead?_target {entries : List (String × Path)}
    (hinstalls : before.InstallsEach after root entries) (hlinks : Kinds.IsLinkFree after.kind?)
    {entry : String × Path} (hentry : entry ∈ entries) :
    (root.join ⟨entry.1⟩).lead? before.current = some (after.transfer root entry).target := by
  rw [← hinstalls.keeps.current]
  exact lead?_of_locate hlinks (hinstalls.targets entry hentry)

/-- A header is installed below the root as the components of its name say. -/
theorem InstallsEach.exists_names {entries : List (String × Path)}
    (hinstalls : before.InstallsEach after root entries) (hlinks : Kinds.IsLinkFree after.kind?)
    (hbase : root.lead? before.current = some base) {entry : String × Path}
    (hplain : (Path.mk entry.1).IsPlain) (hentry : entry ∈ entries) :
    ∃ names : List Name, (after.transfer root entry).target = base ++ names ∧
      (Path.mk entry.1).components = names.map fun name => .normal name.text := by
  have htarget := hinstalls.lead?_target hlinks hentry
  rw [Path.lead?_join hplain.normal, hbase, Option.bind_some] at htarget
  exact exists_names_of_foldlM_lead? hplain.normal htarget

/-- Two headers are installed at one location exactly if their names have the
same components. -/
theorem InstallsEach.target_eq_iff {entries : List (String × Path)}
    (hinstalls : before.InstallsEach after root entries) (hlinks : Kinds.IsLinkFree after.kind?)
    (hplain : ∀ entry ∈ entries, (Path.mk entry.1).IsPlain) {entry other : String × Path}
    (hentry : entry ∈ entries) (hother : other ∈ entries) :
    (after.transfer root other).target = (after.transfer root entry).target ↔
      (Path.mk other.1).components = (Path.mk entry.1).components := by
  have hleadEntry := hinstalls.lead?_target hlinks hentry
  have hleadOther := hinstalls.lead?_target hlinks hother
  constructor
  · intro hsame
    rw [hsame] at hleadOther
    exact Path.components_eq_of_lead?_join (hplain other hother).normal
      (hplain entry hentry).normal hleadOther hleadEntry
  · intro hsame
    rw [Path.lead?_join (hplain other hother).normal, hsame,
      ← Path.lead?_join (hplain entry hentry).normal, hleadEntry, Option.some.injEq] at hleadOther
    exact hleadOther.symm

theorem InstallsEach.target_ne {entries : List (String × Path)}
    (hinstalls : before.InstallsEach after root entries) (hlinks : Kinds.IsLinkFree after.kind?)
    (hplain : ∀ entry ∈ entries, (Path.mk entry.1).IsPlain)
    (hbase : root.lead? before.current = some base) {location : Location}
    (houtside : ¬ base <+: location) {entry : String × Path} (hentry : entry ∈ entries) :
    (after.transfer root entry).target ≠ location := by
  rintro rfl
  exact houtside (Path.isPrefix_of_lead?_join (hplain entry hentry).normal hbase
    (hinstalls.lead?_target hlinks hentry))

/-- A header after which no other is installed at the location of a name is the
last spelling of the name. -/
theorem InstallsEach.isLastSpelling (hinstalls : before.InstallsEach after root set.entries)
    (hlinks : Kinds.IsLinkFree after.kind?)
    (hplain : ∀ entry ∈ set.entries, (Path.mk entry.1).IsPlain)
    {entry last : String × Path} (hentry : entry ∈ set.entries)
    {earlier later : List (String × Path)} (hentries : set.entries = earlier ++ last :: later)
    (hsame : (after.transfer root last).target = (after.transfer root entry).target)
    (hlater : ∀ other ∈ later,
      (after.transfer root other).target ≠ (after.transfer root entry).target) :
    set.IsLastSpelling entry.1 last.1 := by
  have hlast : last ∈ set.entries := by simp [hentries]
  refine ⟨List.mem_map_of_mem hlast, ?_, ?_⟩
  · exact (hinstalls.target_eq_iff hlinks hplain hentry hlast).mp hsame
  · intro name hname hcomponents
    obtain ⟨other, hother, rfl⟩ := List.mem_map.mp hname
    have hmeets := (hinstalls.target_eq_iff hlinks hplain hentry hother).mpr hcomponents
    have hincreasing := set.increasing
    rw [NamesIncrease, hentries, List.pairwise_append] at hincreasing
    rw [hentries, List.mem_append, List.mem_cons] at hother
    rcases hother with hother | rfl | hother
    · exact .inr (Utf8.encode_lt_encode (hincreasing.2.2 other hother last List.mem_cons_self))
    · exact .inl rfl
    · exact absurd hmeets (hlater other hother)

/-- If the sources lie outside of the root, the file of a name holds what the
source of its last spelling held. -/
theorem InstallsEach.exists_last_spelling (hinstalls : before.InstallsEach after root set.entries)
    (hlinks : Kinds.IsLinkFree after.kind?)
    (hplain : ∀ entry ∈ set.entries, (Path.mk entry.1).IsPlain)
    (hbase : root.lead? before.current = some base)
    (hsources : ∀ entry ∈ set.entries, entry.2.IsOutside root before.current)
    {entry : String × Path} (hentry : entry ∈ set.entries) :
    ∃ last source origin contents,
      set.IsLastSpelling entry.1 last ∧ set.get? last = some source ∧
        source.lead? before.current = some origin ∧ before.contents? origin = some contents ∧
        (∀ held, before.read source = .ok held → held = contents) ∧
        after.read (root.join ⟨entry.1⟩) =
          .ok (if last = configHeader then configure contents else contents) := by
  obtain ⟨earlier, last, later, hentries, hsame, hlater, hstored⟩ := hinstalls.exists_last hentry
  have hlast : last ∈ set.entries := by simp [hentries]
  have horigin := hinstalls.lead?_origin hlinks hlast
  have houtside := hsources last hlast _ horigin base hbase
  have hne {other : String × Path} (hother : other ∈ set.entries) :
      (after.transfer root other).target ≠ (after.transfer root last).origin :=
    hinstalls.target_ne hlinks hplain hbase houtside hother
  -- Nothing is installed at the origin before, since it lies outside of the root.
  have hkept : Transfer.performEach (earlier.map (after.transfer root)) before.contents?
      (after.transfer root last).origin = before.contents? (after.transfer root last).origin := by
    refine Transfer.performEach_of_forall_ne ?_
    intro transfer htransfer
    obtain ⟨other, hother, rfl⟩ := List.mem_map.mp htransfer
    exact hne (by simp [hentries, hother])
  obtain ⟨bytes, hbytes⟩ := exists_contents_of_kind? (hinstalls.files entry hentry)
  rw [hbytes, hkept, eq_comm, Option.map_eq_some_iff] at hstored
  obtain ⟨contents, hcontents, hcopied⟩ := hstored
  refine ⟨last.1, last.2, _, contents,
    hinstalls.isLastSpelling hlinks hplain hentry hentries hsame hlater,
    HeaderSet.get?_of_mem_entries hlast, horigin, hcontents, ?_, ?_⟩
  · intro held hread
    obtain ⟨location, hlocate, hheld⟩ := read_eq_ok_iff.mp hread
    rw [← hinstalls.origin_eq hlocate, hcontents] at hheld
    exact (Option.some.inj hheld).symm
  · rw [read_eq_ok_iff.mpr ⟨_, hinstalls.targets entry hentry, hbytes⟩, ← hcopied, Transfer.bytes,
      if_neg (hne hlast)]
    rfl

theorem isDirectory_of_install (hrun : (files.install set path).outcome = .ok ()) :
    (files.install set path).files.isDirectory (path.join ⟨installDirectory⟩) = true := by
  have hmake := @isDirectory_of_makeDirectories files _ path.text_join_installDirectory
  unfold install at hrun ⊢
  dsimp only at hrun ⊢
  split at hrun
  next => cases hrun
  next made hmade =>
      rw [hmade] at hmake
      exact (installEach_spec hrun).keeps.isDirectory (hmake rfl)

theorem locate_of_install (hlinks : Kinds.IsLinkFree files.kind?)
    (hrun : (files.install set path).outcome = .ok ()) :
    ∃ base, (path.join ⟨installDirectory⟩).lead? files.current = some base ∧
      (files.install set path).files.locate (path.join ⟨installDirectory⟩) = .ok base ∧
      (files.install set path).files.kind? base = some .directory := by
  have hchanges := changesWithin_install hlinks set path
  obtain ⟨base, hlocate, hkind⟩ := isDirectory_iff.mp (isDirectory_of_install hrun)
  have hlead := lead?_of_locate hchanges.isLinkFree hlocate
  rw [hchanges.current] at hlead
  exact ⟨base, hlead, hlocate, hkind⟩

theorem lead?_of_install (hlinks : Kinds.IsLinkFree files.kind?)
    (hrun : (files.install set path).outcome = .ok ()) :
    ∃ base, (path.join ⟨installDirectory⟩).lead? files.current = some base ∧
      (files.install set path).files.kind? base = some .directory := by
  obtain ⟨base, hlead, -, hkind⟩ := locate_of_install hlinks hrun
  exact ⟨base, hlead, hkind⟩

/-- An installation that succeeds leaves the kinds of all locations alone that are
not on the way to its directory or to one of its files. -/
theorem kind?_install (hlinks : Kinds.IsLinkFree files.kind?)
    (hnormal : ∀ component ∈ path.components, component.IsNormal)
    (hplain : ∀ name ∈ set.names, (Path.mk name).IsPlain)
    (hrun : (files.install set path).outcome = .ok ())
    (hbase : (path.join ⟨installDirectory⟩).lead? files.current = some base) {location : Location}
    (hbelow : ¬ location <+: base)
    (hoff : ∀ name ∈ set.names, ∀ target,
      ((path.join ⟨installDirectory⟩).join ⟨name⟩).lead? files.current = some target →
        ¬ location <+: target) :
    (files.install set path).files.kind? location = files.kind? location := by
  have hchanges := changesWithin_install hlinks set path
  have hinstalls := install_spec hrun
  have htargets (name : String) (hname : name ∈ set.names) : ∃ target,
      ((path.join ⟨installDirectory⟩).join ⟨name⟩).lead? files.current = some target := by
    obtain ⟨entry, hentry, rfl⟩ := List.mem_map.mp hname
    exact ⟨_, hinstalls.lead?_target hchanges.isLinkFree hentry⟩
  refine hchanges.kinds location ?_
  rintro ⟨request, hrequest, hpasses⟩
  rcases Request.isPrefix_of_passes hnormal hplain hbase htargets hrequest hpasses with
    hway | ⟨name, hname, target, hlead, hway⟩
  · exact hbelow hway
  · exact hoff name hname target hlead hway

/-- In a file system without links, an installation that succeeds puts into the
file of each name what the source of its last spelling held, with the settings of
the configuration header under just that name, and changes nothing else.  The
sources have to lie outside of the install directory. -/
theorem install_isExact (hlinks : Kinds.IsLinkFree files.kind?)
    (hnormal : ∀ component ∈ path.components, component.IsNormal)
    (hplain : ∀ name ∈ set.names, (Path.mk name).IsPlain)
    (hsources : ∀ entry ∈ set.entries,
      entry.2.IsOutside (path.join ⟨installDirectory⟩) files.current)
    (hrun : (files.install set path).outcome = .ok ()) :
    ∃ base, files.InstallsExactly (files.install set path).files (path.join ⟨installDirectory⟩)
      base set := by
  obtain ⟨base, hbase, hdirectory⟩ := lead?_of_install hlinks hrun
  have hchanges := changesWithin_install hlinks set path
  have hinstalls := install_spec hrun
  have htarget {entry : String × Path} (hentry : entry ∈ set.entries) :=
    hinstalls.lead?_target hchanges.isLinkFree hentry
  have htargets (name : String) (hname : name ∈ set.names) : ∃ target,
      ((path.join ⟨installDirectory⟩).join ⟨name⟩).lead? files.current = some target := by
    obtain ⟨entry, hentry, rfl⟩ := List.mem_map.mp hname
    exact ⟨_, htarget hentry⟩
  refine ⟨base, hbase, hdirectory, ?_, hinstalls.keeps, ?_, ?_⟩
  · intro name hname
    obtain ⟨entry, hentry, rfl⟩ := List.mem_map.mp hname
    exact hinstalls.exists_last_spelling hchanges.isLinkFree
      (fun other hother => hplain other.1 (List.mem_map_of_mem hother)) hbase hsources hentry
  · intro location hlocation
    rw [hinstalls.contents]
    refine Transfer.performEach_of_forall_ne ?_
    intro transfer htransfer
    obtain ⟨entry, hentry, rfl⟩ := List.mem_map.mp htransfer
    rintro rfl
    exact hlocation entry.1 (List.mem_map_of_mem hentry) (htarget hentry)
  · intro location hbelow hoff
    refine hchanges.kinds location ?_
    rintro ⟨request, hrequest, hpasses⟩
    rcases Request.isPrefix_of_passes hnormal hplain hbase htargets hrequest hpasses with
      habove | ⟨name, hname, target, hlead, habove⟩
    · exact hbelow habove
    · exact hoff name hname target hlead habove

def respelledFiles : FileSystem where
  root := .directory [(⟨"sources", by decide⟩, .directory
    [(⟨"one", by decide⟩, .file (Utf8.encode "first")),
      (⟨"two", by decide⟩, .file (Utf8.encode "second"))])]
  current := []
  distinct := by
    refine .directory (by decide) (List.forall_mem_singleton.mpr ?_)
    refine .directory (by decide) ?_
    simp only [List.mem_cons, List.not_mem_nil, or_false]
    rintro entry (rfl | rfl) <;> exact .file

/-- Two spellings of one name, and the configuration header.  One of the sources
is reached only when the directories of the installation are there. -/
def respelledSet : HeaderSet :=
  .insertMany .empty
    [("bits/c++config.h", ⟨"sources/two"⟩), ("d//a", ⟨"sources/one"⟩),
      ("d/a", ⟨"p/include/../../sources/two"⟩)]

theorem install_isExact_respelled :
    Kinds.IsLinkFree respelledFiles.kind? ∧
      (∀ component ∈ (Path.mk "p").components, component.IsNormal) ∧
      (∀ name ∈ respelledSet.names, (Path.mk name).IsPlain) ∧
      (∀ entry ∈ respelledSet.entries,
        entry.2.IsOutside ((Path.mk "p").join ⟨installDirectory⟩) respelledFiles.current) ∧
      (respelledFiles.install respelledSet ⟨"p"⟩).outcome = .ok () ∧
      ∃ base, respelledFiles.InstallsExactly (respelledFiles.install respelledSet ⟨"p"⟩).files
        ((Path.mk "p").join ⟨installDirectory⟩) base respelledSet := by
  have hlinks : Kinds.IsLinkFree respelledFiles.kind? := by decide +kernel
  have hnormal : ∀ component ∈ (Path.mk "p").components, component.IsNormal := by decide +kernel
  have hplain : ∀ name ∈ respelledSet.names, (Path.mk name).IsPlain := by decide +kernel
  have hsources : ∀ entry ∈ respelledSet.entries,
      entry.2.IsOutside ((Path.mk "p").join ⟨installDirectory⟩) respelledFiles.current := by
    decide +kernel
  have hrun : (respelledFiles.install respelledSet ⟨"p"⟩).outcome = .ok () := by decide +kernel
  exact ⟨hlinks, hnormal, hplain, hsources, hrun,
    install_isExact hlinks hnormal hplain hsources hrun⟩

end FileSystem

end Freestanding
