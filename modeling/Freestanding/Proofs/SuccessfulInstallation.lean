import Freestanding.Proofs.ExactInstallation
import Freestanding.Proofs.InterruptedInstallation
import Freestanding.Proofs.MadeDirectories

/-!
# When an installation succeeds

In a file system without links, an installation into a directory that is empty or
not there yet can fail only because of its own names.  Either the file of one name
is where another needs a directory, or a name ends with a slash or a dot, so that
its path leads to a directory and never to a file.

Without such names no header that has been installed is in the way of another:
below the install directory there are only the files of names that came before and
the directories on the way to them.
-/

namespace Freestanding

namespace Kinds

variable {kinds : Kinds} {location : Location} {front : List Segment} {last : Segment}

/-- Segments that do not end with a name lead to a directory, if anywhere. -/
theorem IsLinkFree.directory_of_walk (hlinks : kinds.IsLinkFree) (htree : kinds.IsTree)
    (hlast : ∀ text, last ≠ .named text)
    {onLink : Location → Path → List Segment → Except Fault Place} {place : Place}
    (hwalk : kinds.walk .reach onLink location (front ++ [last]) = .ok place) :
    kinds place.location = some .directory := by
  induction front generalizing location with
  | nil =>
      rw [List.nil_append, walk] at hwalk
      by_cases hkind : kinds location = some .directory
      · obtain ⟨next, hmove, hnext⟩ : ∃ next,
            kinds.move .reach location last [] = .go next ∧ kinds next = some .directory := by
          cases last with
          | blank => exact ⟨location, if_pos hkind, hkind⟩
          | here => exact ⟨location, if_pos hkind, hkind⟩
          | up => exact ⟨location.dropLast, if_pos hkind, htree.dropLast hkind⟩
          | named text => exact absurd rfl (hlast text)
        rw [hmove] at hwalk
        obtain rfl : .occupied next = place := Except.ok.inj hwalk
        exact hnext
      · have hstop : kinds.move .reach location last [] = .stop (.error .notDirectory) :=
          if_neg hkind
        rw [hstop] at hwalk
        cases hwalk
  | cons segment rest ih =>
      have hlexical := hlinks.move_isLexical .reach location segment (rest ++ [last])
      have hstops := kinds.move_entersAs location segment (rest ++ [last])
      rw [List.cons_append, walk] at hwalk
      cases hmoved : kinds.move .reach location segment (rest ++ [last]) with
      | go next =>
          rw [hmoved] at hwalk
          exact ih hwalk
      | link target =>
          rw [hmoved] at hlexical
          exact hlexical.elim
      | stop outcome =>
          rw [hmoved] at hstops hwalk
          obtain ⟨fault, rfl⟩ := hstops
          cases hwalk

end Kinds

namespace FileSystem

variable {files made : FileSystem} {path root : Path} {base location above : Location}
  {name : Name} {set : HeaderSet}

theorem endsNamed_of_locate (hlinks : Kinds.IsLinkFree files.kind?)
    (hlocate : files.locate path = .ok location) (hfile : files.kind? location = some .file) :
    path.EndsNamed := by
  obtain ⟨front, last, hsegments⟩ :=
    (List.eq_nil_or_concat path.segments).resolve_left (segments_ne_nil path)
  rw [List.concat_eq_append] at hsegments
  by_contra hnot
  have hlast : ∀ text, last ≠ .named text := by
    rintro text rfl
    exact hnot ⟨front, text, hsegments⟩
  obtain ⟨-, hfollow, -⟩ := resolve_eq_ok_iff.mp (locate_eq_ok_iff.mp hlocate)
  rw [hsegments] at hfollow
  have hdirectory := hlinks.directory_of_walk files.isTree hlast hfollow
  simp [Place.location, hfile] at hdirectory

/-! ### Headers that are not refused -/

theorem LeadsDown.writable (hdown : files.LeadsDown path (above ++ [name]))
    (habove : files.kind? above = some .directory)
    (hfree : files.kind? (above ++ [name]) = none ∨ files.kind? (above ++ [name]) = some .file) :
    files.writable path = .ok (above ++ [name]) := by
  have hnot : ∀ target, files.kind? (above ++ [name]) ≠ some (.link target) := by
    rcases hfree with hnone | hfile
    · simp [hnone]
    · simp [hfile]
  have hresolve : files.resolve .write path = _ :=
    hdown.resolve_of_directory habove (by simp) hnot
  rcases hfree with hnone | hfile
  · rw [if_pos hnone] at hresolve
    simp only [FileSystem.writable, hresolve, bind, Except.bind]
    rfl
  · rw [if_neg (by simp [hfile])] at hresolve
    have hfound : ¬ files.root.isDirectoryAt (above ++ [name]) = true := by
      simp [isDirectoryAt_iff_kind?, hfile]
    simp only [FileSystem.writable, hresolve, bind, Except.bind]
    rw [if_neg hfound]
    rfl

/-- A header is installed if its source is a file, the way to its directory is
open, and nothing is at its own place but a file. -/
theorem LeadsDown.installHeader {header : String} {source : Path} {origin : Location}
    {contents : List UInt8} (hdown : files.LeadsDown (root.join ⟨header⟩) (above ++ [name]))
    (hlinks : Kinds.IsLinkFree files.kind?) (hopen : files.IsOpen above)
    (hfree : files.kind? (above ++ [name]) = none ∨ files.kind? (above ++ [name]) = some .file)
    (hsource : files.locate source = .ok origin)
    (hcontents : files.contents? origin = some contents) :
    ∃ after event, files.installHeader root header source = (after, .ok event) := by
  obtain ⟨made, hparents, hadds, habove, hkept⟩ := hdown.makeParents hlinks hopen
  have htarget : ¬ above ++ [name] <+: above := by
    intro hinitial
    have hlength := hinitial.length_le
    simp at hlength
  rw [← hkept _ htarget] at hfree
  have hwritable := (hdown.of_extends hadds.extends).writable habove hfree
  have horigin := hadds.extends.locate hsource
  have hheld : made.contents? origin = some contents := by
    rw [hadds.contents, hcontents]
  unfold FileSystem.installHeader
  simp only [hparents]
  split_ifs with hconfig
  · have hread := read_eq_ok_iff.mpr ⟨origin, horigin, hheld⟩
    simp only [installConfigured, hread, store_of_writable hwritable]
    exact ⟨_, _, rfl⟩
  · simp only [installVerbatim, copy_of_writable horigin hheld hwritable]
    exact ⟨_, _, rfl⟩

/-! ### What is below the install directory -/

/-- Nothing is below an install directory that is missing or empty, although it
can be made. -/
theorem kind?_eq_none_of_absent (hcheck : root.check = .ok ())
    (hnormal : ∀ component ∈ root.components, component.IsNormal)
    (hbase : root.lead? files.current = some base)
    (habsent : files.node? root = none ∨ files.node? root = some (.directory []))
    {names : List Name} (hnonempty : names ≠ []) : files.kind? (base ++ names) = none := by
  by_contra hthere
  have hdirectory : files.kind? base = some .directory :=
    kind?_of_isPrefix hthere (List.prefix_append _ _) (by simpa using hnonempty)
  have hlocate := locate_of_lead? hcheck (Path.up_not_mem_segments hnormal) hbase hdirectory
  have hnode : files.node? root = files.root.get? base := by
    rw [node?, hlocate]
  rw [hnode] at habsent
  rcases habsent with hnone | hempty
  · simp [kind?, hnone] at hdirectory
  · obtain ⟨name, rest, rfl⟩ := List.exists_cons_of_ne_nil hnonempty
    rw [kind?_append hempty] at hthere
    exact hthere rfl

/-- Below an install directory that was empty, there are the files of the names
and the directories on the way to them. -/
theorem kind?_install_below (hlinks : Kinds.IsLinkFree files.kind?)
    (hpath : ∀ component ∈ path.components, component.IsNormal)
    (hplain : ∀ name ∈ set.names, (Path.mk name).IsPlain)
    (hrun : (files.install set path).outcome = .ok ())
    (hbase : (path.join ⟨installDirectory⟩).lead? files.current = some base)
    (hfresh : ∀ names : List Name, names ≠ [] → files.kind? (base ++ names) = none)
    {names : List Name} (hnonempty : names ≠ []) :
    (files.install set path).files.kind? (base ++ names) = none ∨
      ∃ other ∈ set.names,
        (names.map fun name => .normal name.text) <+: (Path.mk other).components ∧
          (files.install set path).files.kind? (base ++ names) =
            if (names.map fun name => .normal name.text) = (Path.mk other).components
            then some .file else some .directory := by
  have hinstalls := install_spec hrun
  have hlinksAfter := (changesWithin_install hlinks set path).isLinkFree
  by_cases hway : ∃ entry ∈ set.entries, base ++ names <+:
      ((files.install set path).files.transfer (path.join ⟨installDirectory⟩) entry).target
  · right
    obtain ⟨entry, hentry, hinitial⟩ := hway
    have hname : entry.1 ∈ set.names := List.mem_map_of_mem hentry
    have hfile := hinstalls.files entry hentry
    obtain ⟨others, htarget, hcomponents⟩ :=
      hinstalls.exists_names hlinksAfter hbase (hplain entry.1 hname) hentry
    rw [htarget] at hinitial hfile
    have hbelow : names <+: others := (List.prefix_append_right_inj base).mp hinitial
    refine ⟨entry.1, hname, hcomponents ▸ hbelow.map _, ?_⟩
    rw [hcomponents]
    by_cases hsame : names = others
    · rw [if_pos (congrArg _ hsame), hsame, hfile]
    · rw [if_neg (mt (fun hmaps => Name.normal_injective.list_map hmaps) hsame)]
      exact kind?_of_isPrefix (by simp [hfile]) hinitial (by simpa using hsame)
  · left
    rw [← hfresh names hnonempty]
    refine kind?_install hlinks hpath hplain hrun hbase ?_ ?_
    · intro hinitial
      have hlength := hinitial.length_le
      have hpositive := List.length_pos_of_ne_nil hnonempty
      rw [List.length_append] at hlength
      omega
    · intro name hname target hlead hinitial
      obtain ⟨entry, hentry, rfl⟩ := List.mem_map.mp hname
      rw [hinstalls.lead?_target hlinksAfter hentry] at hlead
      exact hway ⟨entry, hentry, Option.some.inj hlead ▸ hinitial⟩

/-- When headers cannot all be installed although their directory can be made, the
ones before some header are, and that header is refused. -/
theorem exists_refused_of_install {error : InstallError}
    (hmake : (files.makeDirectories (path.join ⟨installDirectory⟩)).2 = .ok ())
    (hrun : (files.install set path).outcome = .error error) :
    ∃ entry ∈ set.entries, (files.install (set.before entry.1) path).outcome = .ok () ∧
      ∃ after, (files.install (set.before entry.1) path).files.installHeader
        (path.join ⟨installDirectory⟩) entry.1 entry.2 = (after, .error error) := by
  obtain ⟨made, hmade⟩ : ∃ made,
      files.makeDirectories (path.join ⟨installDirectory⟩) = (made, .ok ()) := ⟨_, by rw [← hmake]⟩
  rw [(install_eq_of_makeDirectories hmade set).2] at hrun
  obtain ⟨earlier, entry, later, hentries, hok, hrefused⟩ := exists_refused_of_installEach hrun
  obtain ⟨hfiles, houtcome⟩ := install_eq_of_makeDirectories hmade (set.before entry.1)
  rw [HeaderSet.entries_before hentries] at hfiles houtcome
  rw [← hfiles] at hrefused
  exact ⟨entry, by simp [hentries], houtcome.trans hok, _, hrefused⟩

/-- A header whose name ends as a name of a file does is installed behind others,
unless the file of one of them is in the way. -/
theorem installHeader_behind (hlinks : Kinds.IsLinkFree files.kind?)
    (hpath : ∀ component ∈ path.components, component.IsNormal)
    (hplain : ∀ name ∈ set.names, (Path.mk name).IsPlain)
    (hrun : (files.install set path).outcome = .ok ())
    (hbase : (path.join ⟨installDirectory⟩).lead? files.current = some base)
    (hfresh : ∀ names : List Name, names ≠ [] → files.kind? (base ++ names) = none)
    {header : String} {source : Path} (hpermitted : (Path.mk header).IsPermitted)
    (hnamed : (Path.mk header).EndsNamed)
    (hshort : ((path.join ⟨installDirectory⟩).join ⟨header⟩).text.utf8ByteSize ≤ pathLimit)
    (hother : ∀ other ∈ set.names, (Path.mk other).components <+: (Path.mk header).components ∨
        (Path.mk header).components <+: (Path.mk other).components →
      (Path.mk other).components = (Path.mk header).components)
    {contents : List UInt8} (hsource : files.node? source = some (.file contents)) :
    ∃ after event, (files.install set path).files.installHeader
      (path.join ⟨installDirectory⟩) header source = (after, .ok event) := by
  have hkeeps := (install_spec hrun).keeps
  have hlinksAfter := (changesWithin_install hlinks set path).isLinkFree
  have hroot := Path.isNormal_of_mem_join hpath isPlain_installDirectory.normal
  obtain ⟨spot, hspot, hlocate, hdirectory⟩ := locate_of_install hlinks hrun
  obtain rfl : base = spot := Option.some.inj (hbase.symm.trans hspot)
  obtain ⟨names, hnonempty, hnames⟩ := hpermitted.exists_names
  have hdown := leadsDown_join hlinksAfter hlocate hroot path.text_join_installDirectory
    hpermitted hnamed hshort hnames
  obtain ⟨front, last, hsplit⟩ := (List.eq_nil_or_concat names).resolve_left hnonempty
  rw [List.concat_eq_append] at hsplit
  rw [hsplit, ← List.append_assoc] at hdown
  have hbelow (way : List Name) (hway : way ≠ []) :=
    kind?_install_below hlinks hpath hplain hrun hbase hfresh hway
  have hopen : (files.install set path).files.IsOpen (base ++ front) := by
    refine isOpen_append hdirectory fun way hfront hway => (hbelow way hway).imp_right ?_
    rintro ⟨other, hmem, -, hkind⟩
    rw [hkind]
    refine if_neg fun hsame => ?_
    -- The file of a name that came before would be on the way to this one.
    have hshorter : (way.map fun name => Component.normal name.text) <+:
        (Path.mk header).components := by
      rw [hnames, hsplit]
      exact (hfront.trans (List.prefix_append _ _)).map _
    have hequal := hother other hmem (.inl (hsame ▸ hshorter))
    rw [← hsame, hnames] at hequal
    have hlength := congrArg List.length hequal
    have hle := hfront.length_le
    simp only [List.length_map, hsplit, List.length_append, List.length_singleton] at hlength
    omega
  have hfree : (files.install set path).files.kind? (base ++ front ++ [last]) = none ∨
      (files.install set path).files.kind? (base ++ front ++ [last]) = some .file := by
    rw [List.append_assoc, ← hsplit]
    rcases hbelow names hnonempty with hnone | ⟨other, hmem, hinitial, hkind⟩
    · exact .inl hnone
    · rw [← hnames] at hinitial hkind
      rw [hother other hmem (.inr hinitial), if_pos rfl] at hkind
      exact .inr hkind
  obtain ⟨origin, horigin, hheld⟩ : ∃ origin, files.locate source = .ok origin ∧
      files.kind? origin = some .file := by
    unfold node? at hsource
    cases hfound : files.locate source with
    | error fault => simp [hfound] at hsource
    | ok origin =>
        rw [hfound] at hsource
        exact ⟨origin, rfl, by simp [kind?, hsource, Node.kind]⟩
  obtain ⟨bytes, hbytes⟩ := exists_contents_of_kind? (hkeeps.kinds _ _ hheld)
  exact hdown.installHeader hlinksAfter hopen hfree (hkeeps.locate horigin) hbytes

/-- No file of a name is on the way to the file of another. -/
theorem isPrefix_components_of_install (hlinks : Kinds.IsLinkFree files.kind?)
    (hplain : ∀ name ∈ set.names, (Path.mk name).IsPlain)
    (hrun : (files.install set path).outcome = .ok ()) {name other : String}
    (hname : name ∈ set.names) (hother : other ∈ set.names)
    (hinitial : (Path.mk name).components <+: (Path.mk other).components) :
    (Path.mk name).components = (Path.mk other).components := by
  have hinstalls := install_spec hrun
  have hlinksAfter := (changesWithin_install hlinks set path).isLinkFree
  obtain ⟨base, hbase, -⟩ := lead?_of_install hlinks hrun
  obtain ⟨entry, hentry, rfl⟩ := List.mem_map.mp hname
  obtain ⟨more, hmore, rfl⟩ := List.mem_map.mp hother
  obtain ⟨names, htarget, hnames⟩ :=
    hinstalls.exists_names hlinksAfter hbase (hplain _ hname) hentry
  obtain ⟨others, htargetMore, hothers⟩ :=
    hinstalls.exists_names hlinksAfter hbase (hplain _ hother) hmore
  have hfile := hinstalls.files entry hentry
  have hfileMore := hinstalls.files more hmore
  rw [htarget] at hfile
  rw [htargetMore] at hfileMore
  rw [hnames, hothers] at hinitial ⊢
  obtain ⟨way, hway, hmaps⟩ := List.prefix_map_iff.mp hinitial
  obtain rfl : names = way := Name.normal_injective.list_map hmaps
  by_contra hne
  have hbelow : base ++ names <+: base ++ others := (List.prefix_append_right_inj base).mpr hway
  have hthere : (files.install set path).files.kind? (base ++ others) ≠ none := by
    simp [hfileMore]
  have hdirectory := kind?_of_isPrefix hthere hbelow
    fun hsame => hne (by rw [List.append_cancel_left hsame])
  simp [hfile] at hdirectory

/-- Whether an installation finds what it needs, so that only its own names can be
in its way: no links, a directory that can be made and is empty or missing, and
files to install under names and paths that are permitted. -/
structure IsReady (files : FileSystem) (set : HeaderSet) (path : Path) : Prop where
  links : Kinds.IsLinkFree files.kind?
  normal : ∀ component ∈ path.components, component.IsNormal
  made : (files.makeDirectories (path.join ⟨installDirectory⟩)).2 = .ok ()
  absent : files.node? (path.join ⟨installDirectory⟩) = none ∨
    files.node? (path.join ⟨installDirectory⟩) = some (.directory [])
  names : ∀ name ∈ set.names, (Path.mk name).IsPermitted
  sources : ∀ entry ∈ set.entries, ∃ contents, files.node? entry.2 = some (.file contents)
  short : ∀ name ∈ set.names,
    ((path.join ⟨installDirectory⟩).join ⟨name⟩).text.utf8ByteSize ≤ pathLimit

theorem IsReady.exists_base (hready : files.IsReady set path) :
    ∃ base, (path.join ⟨installDirectory⟩).lead? files.current = some base ∧
      ∀ names : List Name, names ≠ [] → files.kind? (base ++ names) = none := by
  have hroot := Path.isNormal_of_mem_join hready.normal isPlain_installDirectory.normal
  have hchanges := changesWithin_makeDirectories hready.links (path.join ⟨installDirectory⟩)
  have hdirectory :=
    isDirectory_of_makeDirectories path.text_join_installDirectory hready.made
  obtain ⟨base, hlocate, -⟩ := isDirectory_iff.mp hdirectory
  have hbase := lead?_of_locate hchanges.isLinkFree hlocate
  rw [hchanges.current] at hbase
  obtain ⟨hcheck, -⟩ := resolve_eq_ok_iff.mp (locate_eq_ok_iff.mp hlocate)
  exact ⟨base, hbase, fun _ hnonempty =>
    kind?_eq_none_of_absent hcheck hroot hbase hready.absent hnonempty⟩

theorem IsReady.install (hready : files.IsReady set path)
    (hclash : ∀ name ∈ set.names, ∀ other ∈ set.names,
      (Path.mk name).components <+: (Path.mk other).components →
        (Path.mk name).components = (Path.mk other).components)
    (hnamed : ∀ name ∈ set.names, (Path.mk name).EndsNamed) :
    (files.install set path).outcome = .ok () := by
  obtain ⟨base, hbase, hfresh⟩ := hready.exists_base
  by_contra hfails
  obtain ⟨error, hrun⟩ : ∃ error, (files.install set path).outcome = .error error := by
    cases houtcome : (files.install set path).outcome with
    | error error => exact ⟨error, rfl⟩
    | ok => exact absurd houtcome hfails
  obtain ⟨entry, hentry, hbefore, after, hrefused⟩ := exists_refused_of_install hready.made hrun
  have hname : entry.1 ∈ set.names := List.mem_map_of_mem hentry
  have hmem (other : String) (hother : other ∈ (set.before entry.1).names) :
      other ∈ set.names := by
    obtain ⟨earlier, hearlier, rfl⟩ := List.mem_map.mp hother
    exact List.mem_map_of_mem (List.mem_filter.mp hearlier).1
  have hplain (other : String) (hother : other ∈ (set.before entry.1).names) :
      (Path.mk other).IsPlain := (hready.names other (hmem other hother)).plain
  have hfree (other : String) (hother : other ∈ (set.before entry.1).names)
      (hmeets : (Path.mk other).components <+: (Path.mk entry.1).components ∨
        (Path.mk entry.1).components <+: (Path.mk other).components) :
      (Path.mk other).components = (Path.mk entry.1).components := by
    rcases hmeets with habove | hbelow
    · exact hclash other (hmem other hother) entry.1 hname habove
    · exact (hclash entry.1 hname other (hmem other hother) hbelow).symm
  obtain ⟨contents, hsource⟩ := hready.sources entry hentry
  obtain ⟨installed, event, hinstalled⟩ :=
    installHeader_behind hready.links hready.normal hplain hbefore hbase hfresh
      (hready.names entry.1 hname) (hnamed entry.1 hname) (hready.short entry.1 hname) hfree
      hsource
  rw [hinstalled] at hrefused
  cases hrefused

/-- An installation that finds what it needs succeeds exactly if the components of
no name are a proper beginning of those of another and no name ends with a slash or
with a dot behind one. -/
theorem install_succeeds_iff (hready : files.IsReady set path) :
    (files.install set path).outcome = .ok () ↔
      (∀ name ∈ set.names, ∀ other ∈ set.names,
        (Path.mk name).components <+: (Path.mk other).components →
          (Path.mk name).components = (Path.mk other).components) ∧
        ∀ name ∈ set.names, ¬ ['/'] <:+ name.toList ∧ ¬ ['/', '.'] <:+ name.toList := by
  have hplain (name : String) (hname : name ∈ set.names) : (Path.mk name).IsPlain :=
    (hready.names name hname).plain
  constructor
  · intro hrun
    have hinstalls := install_spec hrun
    have hlinksAfter := (changesWithin_install hready.links set path).isLinkFree
    refine ⟨fun name hname other hother =>
      isPrefix_components_of_install hready.links hplain hrun hname hother, ?_⟩
    intro name hname
    obtain ⟨entry, hentry, rfl⟩ := List.mem_map.mp hname
    have hnamed := endsNamed_of_locate hlinksAfter (hinstalls.targets entry hentry)
      (hinstalls.files entry hentry)
    have hrelative := Path.isAbsolute_eq_false_of_isNormal (hplain _ hname).normal
    rw [Path.endsNamed_join_iff path.text_join_installDirectory hrelative] at hnamed
    exact (Path.endsNamed_iff (hplain _ hname)).mp hnamed
  · rintro ⟨hclash, hends⟩
    exact hready.install hclash fun name hname =>
      (Path.endsNamed_iff (hplain name hname)).mpr (hends name hname)

/-- Headers in directories that are spelled differently. -/
def nestedSet : HeaderSet :=
  .insertMany .empty
    [("bits/c++config.h", ⟨"sources/one"⟩), ("d/./b", ⟨"sources/one"⟩),
      ("d//a", ⟨"sources/two"⟩)]

theorem install_succeeds_iff_nested :
    respelledFiles.IsReady nestedSet ⟨"p"⟩ ∧
      ((respelledFiles.install nestedSet ⟨"p"⟩).outcome = .ok () ↔
        (∀ name ∈ nestedSet.names, ∀ other ∈ nestedSet.names,
          (Path.mk name).components <+: (Path.mk other).components →
            (Path.mk name).components = (Path.mk other).components) ∧
          ∀ name ∈ nestedSet.names, ¬ ['/'] <:+ name.toList ∧ ¬ ['/', '.'] <:+ name.toList) := by
  have hentries : nestedSet.entries =
      [("bits/c++config.h", ⟨"sources/one"⟩), ("d/./b", ⟨"sources/one"⟩),
        ("d//a", ⟨"sources/two"⟩)] := by
    decide +kernel
  have hready : respelledFiles.IsReady nestedSet ⟨"p"⟩ := by
    refine ⟨?_, ?_, ?_, .inl ?_, ?_, ?_, ?_⟩
    · decide +kernel
    · decide +kernel
    · decide +kernel
    · decide +kernel
    · decide +kernel
    · rw [hentries]
      simp only [List.mem_cons, List.not_mem_nil, or_false]
      rintro entry (rfl | rfl | rfl) <;> exact ⟨_, rfl⟩
    · decide +kernel
  exact ⟨hready, install_succeeds_iff hready⟩

end FileSystem

end Freestanding
