import Freestanding.Proofs.InstallationExtent
import Freestanding.Proofs.NamedPaths
import Freestanding.Proofs.WaysDown

/-!
# When directories can be made

A path that ends with a name asks for one entry of the directory above it, which
its nearest parent leads to.  If that directory is there the entry can be made.
Otherwise the parent is made first, and so on up to a directory that is there.  So
on an open way all directories of a path can be made.
-/

namespace Freestanding

namespace FileSystem

/-- Whether a path is one of names, ends with one and leads down from the current
directory to a location. -/
structure LeadsDown (files : FileSystem) (path : Path) (location : Location) : Prop where
  check : path.check = .ok ()
  normal : ∀ component ∈ path.components, component.IsNormal
  named : path.EndsNamed
  current : files.kind? files.current = some .directory
  lead : path.lead? files.current = some location

variable {files made : FileSystem} {path root : Path} {location above : Location} {name : Name}
  {purpose : Purpose}

theorem LeadsDown.text_ne_empty (hdown : files.LeadsDown path location) : path.text ≠ "" :=
  (Path.check_eq_ok_iff.mp hdown.check).2.2

theorem LeadsDown.start_eq (hdown : files.LeadsDown path location) :
    files.start path = files.current := by
  rw [start, if_neg (by simp [Path.isAbsolute_eq_false_of_isNormal hdown.normal])]

theorem LeadsDown.of_extends (hdown : files.LeadsDown path location)
    (hextends : files.Extends made) : made.LeadsDown path location where
  check := hdown.check
  normal := hdown.normal
  named := hdown.named
  current := by
    rw [hextends.current]
    exact hextends.kinds _ _ hdown.current
  lead := by
    rw [hextends.current]
    exact hdown.lead

/-- Behind the segments that lead to a directory, a path that leads down has the
name of an entry. -/
theorem LeadsDown.exists_front (hdown : files.LeadsDown path location) :
    ∃ above name front, location = above ++ [name] ∧
      path.segments = front ++ [.named name.text] ∧ .up ∉ front ∧
        front.foldlM Segment.lead? files.current = some above := by
  obtain ⟨front, text, hsegments⟩ := hdown.named
  have hup := Path.up_not_mem_segments hdown.normal
  have hlead := hdown.lead
  rw [lead?_eq_foldlM_segments, hdown.start_eq, hsegments, List.foldlM_append] at hlead
  obtain ⟨above, habove, hstep⟩ := Option.bind_eq_some_iff.mp hlead
  rw [List.foldlM_cons] at hstep
  obtain ⟨next, hnext, hsame⟩ := Option.bind_eq_some_iff.mp hstep
  obtain rfl : next = location := Option.some.inj hsame
  obtain ⟨name, hname, rfl⟩ := Option.map_eq_some_iff.mp hnext
  refine ⟨above, name, front, rfl, ?_, ?_, habove⟩
  · rw [hsegments, Name.text_of_ofText? hname]
  · exact fun hmem => hup (by simp [hsegments, hmem])

theorem LeadsDown.resolve_of_directory (hdown : files.LeadsDown path (above ++ [name]))
    (habove : files.kind? above = some .directory) (hpurpose : purpose ≠ .reach)
    (hnot : ∀ target, files.kind? (above ++ [name]) ≠ some (.link target)) :
    files.resolve purpose path =
      .ok (if files.kind? (above ++ [name]) = none then .vacant (above ++ [name])
        else .occupied (above ++ [name])) := by
  obtain ⟨spot, last, front, hlocation, hsegments, hup, hlead⟩ := hdown.exists_front
  obtain ⟨rfl, hlast⟩ := List.append_inj' hlocation rfl
  obtain rfl : name = last := List.singleton_inj.mp hlast
  have hstart : files.kind? (files.start path) ≠ none := by
    simp [hdown.start_eq, hdown.current]
  have hwalk (onLink : Location → Path → List Segment → Except Fault Place) :=
    (walk_append_of_directory hup hlead habove (.inr (by simp)) onLink).trans
      (Kinds.walk_named habove hpurpose hnot onLink)
  rw [resolve_of_check hdown.check hstart, hdown.start_eq, hsegments]
  exact hwalk _

theorem LeadsDown.resolve_of_missing (hdown : files.LeadsDown path (above ++ [name]))
    (hopen : files.IsOpen above) (habove : files.kind? above = none) :
    files.resolve purpose path = .error .missing := by
  obtain ⟨spot, last, front, hlocation, hsegments, hup, hlead⟩ := hdown.exists_front
  obtain ⟨rfl, -⟩ := List.append_inj' hlocation rfl
  have hstart : files.kind? (files.start path) ≠ none := by
    simp [hdown.start_eq, hdown.current]
  rw [resolve_of_check hdown.check hstart, hdown.start_eq, hsegments]
  exact walk_append_of_missing hup hlead hdown.current hopen habove (by simp) _

/-- The name of a header leads down from a directory that is there. -/
theorem leadsDown_join (hlinks : Kinds.IsLinkFree files.kind?)
    (hlocate : files.locate root = .ok location)
    (hroot : ∀ component ∈ root.components, component.IsNormal) (hnonempty : root.text ≠ "")
    {header : String} (hpermitted : (Path.mk header).IsPermitted)
    (hnamed : (Path.mk header).EndsNamed)
    (hshort : (root.join ⟨header⟩).text.utf8ByteSize ≤ pathLimit) {names : List Name}
    (hnames : (Path.mk header).components = names.map fun name => .normal name.text) :
    files.LeadsDown (root.join ⟨header⟩) (location ++ names) := by
  have hrelative := Path.isAbsolute_eq_false_of_isNormal hpermitted.plain.normal
  obtain ⟨hcheck, hfollow, -⟩ := resolve_eq_ok_iff.mp (locate_eq_ok_iff.mp hlocate)
  have hstart := Kinds.directory_of_follow (segments_ne_nil _) hfollow
  rw [start, if_neg (by simp [Path.isAbsolute_eq_false_of_isNormal hroot])] at hstart
  constructor
  · exact (Path.check_join_iff hrelative hcheck hpermitted.nul).mpr hshort
  · exact Path.isNormal_of_mem_join hroot hpermitted.plain.normal
  · exact (Path.endsNamed_join_iff hnonempty hrelative).mpr hnamed
  · exact hstart
  · rw [Path.lead?_join hpermitted.plain.normal, lead?_of_locate hlinks hlocate, hnames]
    exact Location.foldlM_lead? names location

/-! ### Directories on open ways -/

theorem IsOpen.not_link (hopen : files.IsOpen location) (target : Path) :
    files.kind? location ≠ some (.link target) := by
  rcases hopen location List.prefix_rfl with hnone | hdirectory
  · simp [hnone]
  · simp [hdirectory]

/-- In a directory that is there, the directory of a path is made or is there. -/
theorem LeadsDown.makeDirectory (hdown : files.LeadsDown path (above ++ [name]))
    (hopen : files.IsOpen (above ++ [name])) (habove : files.kind? above = some .directory) :
    (∃ made, files.makeDirectory path = .ok made) ∨
      files.makeDirectory path = .error .alreadyExists ∧ files.isDirectory path = true := by
  have hresolve : files.resolve .entry path = _ :=
    hdown.resolve_of_directory habove (by simp) hopen.not_link
  rcases hopen _ List.prefix_rfl with hnone | hdirectory
  · rw [if_pos hnone] at hresolve
    left
    exact ⟨_, by simp only [FileSystem.makeDirectory, hresolve, bind, Except.bind]; rfl⟩
  · rw [if_neg (by simp [hdirectory])] at hresolve
    right
    constructor
    · simp only [FileSystem.makeDirectory, hresolve, bind, Except.bind]
      rfl
    · have hlocate := locate_of_lead? hdown.check (Path.up_not_mem_segments hdown.normal)
        hdown.lead hdirectory
      exact isDirectory_iff.mpr ⟨_, hlocate, hdirectory⟩

theorem LeadsDown.makeDirectory_of_missing (hdown : files.LeadsDown path (above ++ [name]))
    (hopen : files.IsOpen above) (habove : files.kind? above = none) :
    files.makeDirectory path = .error .missing := by
  simp only [FileSystem.makeDirectory, hdown.resolve_of_missing hopen habove, bind, Except.bind]

theorem kind?_of_makeDirectories (hlinks : Kinds.IsLinkFree files.kind?)
    (hnonempty : path.text ≠ "") (hlead : path.lead? files.current = some location)
    (hmake : files.makeDirectories path = (made, .ok ())) :
    made.kind? location = some .directory := by
  have hchanges := changesWithin_makeDirectories hlinks path
  have hdirectory := isDirectory_of_makeDirectories hnonempty (congrArg Prod.snd hmake)
  rw [hmake] at hchanges hdirectory
  obtain ⟨spot, hlocate, hkind⟩ := isDirectory_iff.mp hdirectory
  have hspot := lead?_of_locate hchanges.isLinkFree hlocate
  rw [hchanges.current, hlead] at hspot
  obtain rfl : location = spot := Option.some.inj hspot
  exact hkind

theorem LeadsDown.parent (hdown : files.LeadsDown path (above ++ [name])) :
    ∃ parent, path.parents = parent :: parent.parents ∧ parent.lead? files.current = some above ∧
      (parent.text = "" ∧ above = files.current ∨ files.LeadsDown parent above) := by
  obtain ⟨parent, hparents, hinitial, hnormal, hnamed⟩ := hdown.named.exists_parent hdown.normal
  have hparent : path.parent? = some parent := Path.parent?_of_parents hparents
  have hlead := Path.lead?_of_parent? hdown.normal hdown.text_ne_empty hparent hdown.lead
  refine ⟨parent, hparents, hlead, ?_⟩
  by_cases hempty : parent.text = ""
  · left
    obtain rfl : parent = ⟨""⟩ := by rw [← hempty]
    exact ⟨rfl, (Option.some.inj hlead).symm⟩
  · right
    exact ⟨Path.check_of_isPrefix hinitial hempty hdown.check, hnormal, hnamed hempty,
      hdown.current, hlead⟩

/-- On an open way all directories of a path are made. -/
theorem LeadsDown.makeDirectories (hdown : files.LeadsDown path location)
    (hlinks : Kinds.IsLinkFree files.kind?) (hopen : files.IsOpen location) :
    ∃ made, files.makeDirectories path = (made, .ok ()) ∧
      made.kind? location = some .directory := by
  suffices hmake : ∃ made, files.makeDirectories path = (made, .ok ()) by
    obtain ⟨made, hmade⟩ := hmake
    exact ⟨made, hmade, kind?_of_makeDirectories hlinks hdown.text_ne_empty hdown.lead hmade⟩
  -- From the end of the way up to the nearest directory that is there.
  induction location using List.reverseRecOn generalizing path with
  | nil =>
      obtain ⟨above, name, front, hlocation, -⟩ := hdown.exists_front
      simp at hlocation
  | append_singleton above name ih =>
      have hopenAbove : files.IsOpen above := hopen.of_isPrefix (List.prefix_append _ _)
      unfold FileSystem.makeDirectories makeWithParents
      rw [if_neg hdown.text_ne_empty]
      rcases hopenAbove above List.prefix_rfl with hnone | hdirectory
      · obtain ⟨parent, hparents, hlead, hparent⟩ := hdown.parent
        have hparentDown : files.LeadsDown parent above := by
          refine hparent.resolve_left ?_
          rintro ⟨-, rfl⟩
          simp [hdown.current] at hnone
        obtain ⟨made, hmade⟩ := ih hparentDown hopenAbove
        have habove := kind?_of_makeDirectories hlinks hparentDown.text_ne_empty hlead hmade
        have hadds := addsDirectories_makeDirectories files parent
        rw [hmade] at hadds
        have hagain : files.makeWithParents path.parents = (made, .ok ()) := by
          rw [hparents]
          exact hmade
        simp only [hdown.makeDirectory_of_missing hopenAbove hnone, hagain]
        rcases (hdown.of_extends hadds.extends).makeDirectory (hadds.isOpen hopen) habove with
          ⟨after, hafter⟩ | ⟨hexists, hthere⟩
        · simp only [hafter]
          exact ⟨after, rfl⟩
        · simp only [hexists, hthere, if_true]
          exact ⟨made, rfl⟩
      · rcases hdown.makeDirectory hopen hdirectory with ⟨made, hmade⟩ | ⟨hexists, hthere⟩
        · simp only [hmade]
          exact ⟨made, rfl⟩
        · simp only [hexists, hthere, if_true]
          exact ⟨files, rfl⟩

/-- On an open way the directory of a path is made, and nothing that is not on the
way. -/
theorem LeadsDown.makeParents (hdown : files.LeadsDown path (above ++ [name]))
    (hlinks : Kinds.IsLinkFree files.kind?) (hopen : files.IsOpen above) :
    ∃ made, files.makeParents path = (made, .ok ()) ∧ files.AddsDirectories made ∧
      made.kind? above = some .directory ∧
        ∀ other, ¬ other <+: above → made.kind? other = files.kind? other := by
  obtain ⟨parent, hparents, hlead, hparent⟩ := hdown.parent
  have hnearest : path.parent? = some parent := Path.parent?_of_parents hparents
  unfold FileSystem.makeParents
  rcases hparent with ⟨hempty, rfl⟩ | hparentDown
  · simp only [hnearest, makeDirectories_of_text_eq_empty hempty]
    exact ⟨files, rfl, .refl files, hdown.current, fun _ _ => rfl⟩
  · obtain ⟨made, hmade, hkind⟩ := hparentDown.makeDirectories hlinks hopen
    have hadds := addsDirectories_makeDirectories files parent
    have hchanges := changesWithin_makeDirectories hlinks parent
    rw [hmade] at hadds hchanges
    simp only [hnearest, hmade]
    refine ⟨made, rfl, hadds, hkind, ?_⟩
    intro other hother
    exact hchanges.kinds other fun hpasses =>
      hother (hpasses.isPrefix hparentDown.normal hparentDown.lead)

end FileSystem

end Freestanding
