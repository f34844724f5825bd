import Freestanding.Proofs.IncludeGraph
import Freestanding.Proofs.UndisturbedTree

/-!
# Paths below a root

The root of a source tree may be reached through links.  If there are none below
it, the path of an entry leads to the entry, provided that the path is not too
long: it goes where the root goes and from there down, name by name.

So a source tree without links is told by what is at and below its root, as seen
from there.  `SourceTree.kind?` and `SourceTree.contents?` are this view.
-/

namespace Freestanding

namespace Kinds

variable {kinds : Kinds} {location base : Location} {segments front more : List Segment}
  {outcome : Except Fault Place}

/-! ### Segments put together -/

/-- What follows a segment matters only to who wants to make or remove
something. -/
theorem move_reach (kinds : Kinds) (location : Location) (segment : Segment)
    (rest more : List Segment) :
    kinds.move .reach location segment rest = kinds.move .reach location segment more := by
  simp [move]

theorem walk_reach_append
    {onLink onLinkMore : Location → Path → List Segment → Except Fault Place}
    (hlink : ∀ above target rest, onLink above target rest = .ok (.occupied base) →
      onLinkMore above target (rest ++ more) = outcome)
    (hmore : kinds.walk .reach onLinkMore base more = outcome)
    (hwalk : kinds.walk .reach onLink location segments = .ok (.occupied base)) :
    kinds.walk .reach onLinkMore location (segments ++ more) = outcome := by
  induction segments generalizing location with
  | nil =>
      simp only [walk, Except.ok.injEq, Place.occupied.injEq] at hwalk
      subst hwalk
      exact hmore
  | cons segment rest ih =>
      have hstops := kinds.move_entersAs location segment rest
      rw [List.cons_append]
      unfold walk at hwalk ⊢
      rw [kinds.move_reach location segment (rest ++ more) rest]
      cases hmoved : kinds.move .reach location segment rest with
      | go next =>
          rw [hmoved] at hwalk
          exact ih hwalk
      | link target =>
          rw [hmoved] at hwalk
          exact hlink _ _ _ hwalk
      | stop stopped =>
          rw [hmoved] at hwalk hstops
          obtain ⟨fault, rfl⟩ := hstops
          simp at hwalk

/-- Segments that lead on without links lead on from where others lead. -/
theorem follow_reach_append {links : Nat}
    (hmore : ∀ onLink, kinds.walk .reach onLink base more = outcome)
    (hfollow : kinds.follow .reach links location segments = .ok (.occupied base)) :
    kinds.follow .reach links location (segments ++ more) = outcome := by
  induction links generalizing location segments with
  | zero => exact walk_reach_append (by simp) (hmore _) hfollow
  | succ links ih =>
      refine walk_reach_append ?_ (hmore _) hfollow
      intro above target rest hrest
      split_ifs at hrest ⊢ with hempty
      · rw [← List.append_assoc]
        exact ih hrest
      · rw [← List.append_assoc]
        exact ih hrest

theorem walk_blank_cons (hmore : more ≠ []) {purpose : Purpose}
    (onLink : Location → Path → List Segment → Except Fault Place) :
    kinds.walk purpose onLink location (.blank :: more) =
      kinds.walk purpose onLink location more := by
  obtain ⟨segment, rest, rfl⟩ := List.exists_cons_of_ne_nil hmore
  by_cases hkind : kinds location = some .directory
  · have hmove : kinds.move purpose location .blank (segment :: rest) = .go location := if_pos hkind
    rw [walk, hmove]
  · have hstop (next : Segment) (behind : List Segment) :
        kinds.move purpose location next behind = .stop (.error .notDirectory) := if_neg hkind
    rw [walk, walk, hstop, hstop]

theorem walk_reach_blank (hmore : more ≠ [])
    {onLink : Location → Path → List Segment → Except Fault Place}
    (hlink : ∀ above target rest, onLink above target (rest ++ .blank :: more) =
      onLink above target (rest ++ more)) :
    kinds.walk .reach onLink location (front ++ .blank :: more) =
      kinds.walk .reach onLink location (front ++ more) := by
  induction front generalizing location with
  | nil => exact walk_blank_cons hmore onLink
  | cons segment rest ih =>
      rw [List.cons_append, List.cons_append]
      unfold walk
      rw [kinds.move_reach location segment (rest ++ .blank :: more) (rest ++ more)]
      cases kinds.move .reach location segment (rest ++ more) with
      | go next => exact ih
      | link target => exact hlink _ _ _
      | stop stopped => rfl

/-- A blank segment makes no difference in front of another one. -/
theorem follow_reach_blank (hmore : more ≠ []) {links : Nat} :
    kinds.follow .reach links location (front ++ .blank :: more) =
      kinds.follow .reach links location (front ++ more) := by
  induction links generalizing location front with
  | zero => exact walk_reach_blank hmore fun _ _ _ => rfl
  | succ links ih =>
      refine walk_reach_blank hmore ?_
      intro above target rest
      rw [← List.append_assoc, ← List.append_assoc, ih]

end Kinds

/-! ### Paths of locations -/

theorem Location.segments_path {location : Location} (hnonempty : location ≠ []) :
    location.path.segments = location.map fun name => .named name.text := by
  rw [Path.segments, pieces_path hnonempty, List.map_map]
  apply List.map_congr_left
  intro name _
  obtain ⟨hblank, hhere, hup⟩ := name.toList_text_ne
  rw [Function.comp_apply, Segment.ofPiece, if_neg hblank, if_neg hhere, if_neg hup,
    String.ofList_toList]

theorem Location.isAbsolute_path (location : Location) : location.path.isAbsolute = false :=
  Path.isAbsolute_eq_false_of_isNormal location.isNormal_of_mem_path

theorem Path.isAbsolute_join {path below : Path} (hnonempty : path.text ≠ "")
    (hrelative : below.isAbsolute = false) : (path.join below).isAbsolute = path.isAbsolute := by
  have hne : path.text.toList ≠ [] := mt String.toList_eq_nil_iff.mp hnonempty
  obtain ⟨first, rest, hpath⟩ := List.exists_cons_of_ne_nil hne
  rw [join, if_neg (by simp [hrelative])]
  split_ifs <;> simp [isAbsolute, hpath]

/-- The segments of a path and names below it, from the blank one on with which
the path may end. -/
theorem Path.segments_join_path (path : Path) (hnonempty : path.text ≠ "") {location : Location}
    (hlocation : location ≠ []) :
    (∃ front, path.segments = front ++ [.blank] ∧
        (path.join location.path).segments =
          front ++ location.map fun name => .named name.text) ∨
      (path.join location.path).segments =
        path.segments ++ location.map fun name => .named name.text := by
  rw [← Location.segments_path hlocation]
  rcases pieces_join hnonempty location.isAbsolute_path with ⟨front, -, hown, hjoined⟩ |
    ⟨-, hjoined⟩
  · refine .inl ⟨front.map Segment.ofPiece, ?_, ?_⟩
    · rw [segments, hown, List.map_append]
      rfl
    · rw [segments, hjoined, List.map_append]
      rfl
  · refine .inr ?_
    rw [segments, hjoined, List.map_append]
    rfl

namespace FileSystem

variable {files : FileSystem} {base location : Location} {path : Path}

/-- Names lead down to what is there if there are no links below. -/
theorem walk_names (files : FileSystem)
    (hlinks : ∀ below target, files.kind? (base ++ below) ≠ some (.link target))
    (hthere : files.kind? (base ++ location) ≠ none)
    (onLink : Location → Path → List Segment → Except Fault Place) :
    Kinds.walk files.kind? .reach onLink base (location.map fun name => .named name.text) =
      .ok (.occupied (base ++ location)) := by
  induction location generalizing base with
  | nil => simp [Kinds.walk]
  | cons name rest ih =>
      have hdirectory : files.kind? base = some .directory :=
        kind?_of_isPrefix hthere (List.prefix_append _ _) (by simp)
      obtain ⟨kind, hkind⟩ : ∃ kind, files.kind? (base ++ [name]) = some kind := by
        cases rest with
        | nil => exact Option.ne_none_iff_exists'.mp hthere
        | cons next more =>
            exact ⟨.directory, kind?_of_isPrefix hthere ⟨next :: more, by simp⟩ (by simp)⟩
      have hmove : Kinds.move files.kind? .reach base (.named name.text)
          (rest.map fun other => .named other.text) = .into (base ++ [name]) kind :=
        Kinds.move_named hdirectory (by simp) (Nat.not_lt.mpr name.isEntryName.2.2.2)
          name.ofText?_text hkind (by simp)
      have hgo : Kinds.Move.into (base ++ [name]) kind = .go (base ++ [name]) := by
        cases kind with
        | file => rfl
        | link target => exact absurd hkind (hlinks [name] target)
        | directory => rfl
      rw [List.map_cons, Kinds.walk, hmove, hgo]
      rw [List.append_cons base name rest] at hthere ⊢
      apply ih _ hthere
      intro below
      rw [← List.append_cons]
      exact hlinks (name :: below)

theorem text_ne_empty_of_locate (hlocate : files.locate path = .ok location) : path.text ≠ "" := by
  intro hempty
  have hcheck := (resolve_eq_ok_iff.mp (locate_eq_ok_iff.mp hlocate)).1
  unfold Path.check at hcheck
  split_ifs at hcheck

/-- Without links below, the path of an entry leads to the entry. -/
theorem locate_join_path (hbase : files.locate path = .ok base)
    (hlinks : ∀ below target, files.kind? (base ++ below) ≠ some (.link target))
    (hnonempty : location ≠ []) (hthere : files.kind? (base ++ location) ≠ none)
    (hcheck : (path.join location.path).check = .ok ()) :
    files.locate (path.join location.path) = .ok (base ++ location) := by
  have htext := text_ne_empty_of_locate hbase
  obtain ⟨-, hfollow, hstart⟩ := resolve_eq_ok_iff.mp (locate_eq_ok_iff.mp hbase)
  have hsame : files.start (path.join location.path) = files.start path := by
    rw [start, start, Path.isAbsolute_join htext location.isAbsolute_path]
  have hdown := files.walk_names hlinks hthere
  rw [locate_eq_ok_iff, resolve_eq_ok_iff, hsame]
  refine ⟨hcheck, ?_, hstart⟩
  rcases path.segments_join_path htext hnonempty with ⟨front, hown, hjoined⟩ | hjoined
  · rw [hown] at hfollow
    have happend := Kinds.follow_reach_append hdown hfollow
    rw [List.append_assoc, List.singleton_append, Kinds.follow_reach_blank (by simpa)] at happend
    rw [hjoined, happend]
  · rw [hjoined, Kinds.follow_reach_append hdown hfollow]

end FileSystem

/-! ### Paths that are short enough -/

theorem eq_or_exists_mem_of_mem_intercalate {α : Type} {separator x : α} {parts : List (List α)}
    (hx : x ∈ [separator].intercalate parts) : x = separator ∨ ∃ part ∈ parts, x ∈ part := by
  induction parts with
  | nil => simp [List.intercalate] at hx
  | cons part rest ih =>
      cases rest with
      | nil => exact .inr ⟨part, List.mem_cons_self, by simpa [List.intercalate] using hx⟩
      | cons next more =>
          have hjoined : [separator].intercalate (part :: next :: more) =
              part ++ separator :: [separator].intercalate (next :: more) := by
            simp [List.intercalate]
          rw [hjoined, List.mem_append, List.mem_cons] at hx
          rcases hx with hx | hx | hx
          · exact .inr ⟨part, List.mem_cons_self, hx⟩
          · exact .inl hx
          · obtain hsame | ⟨other, hother, hmem⟩ := ih hx
            · exact .inl hsame
            · exact .inr ⟨other, List.mem_cons_of_mem _ hother, hmem⟩

theorem mem_intercalate_of_mem {α : Type} {separator x : α} {part : List α}
    {parts : List (List α)} (hpart : part ∈ parts) (hx : x ∈ part) :
    x ∈ [separator].intercalate parts := by
  induction parts with
  | nil => simp at hpart
  | cons first rest ih =>
      cases rest with
      | nil =>
          rw [List.mem_singleton.mp hpart] at hx
          simpa [List.intercalate] using hx
      | cons next more =>
          rw [List.intercalate_cons_cons]
          rcases List.mem_cons.mp hpart with rfl | hpart
          · exact List.mem_append_left _ (List.mem_append_left _ hx)
          · exact List.mem_append_right _ (ih hpart)

namespace Path

theorem check_eq_ok_iff {path : Path} :
    path.check = .ok () ↔ '\x00' ∉ path.text.toList ∧ path.text.utf8ByteSize ≤ pathLimit ∧
      path.text ≠ "" := by
  unfold check
  split_ifs with hnul hlong hempty <;> simp_all

theorem text_join {path below : Path} (hrelative : below.isAbsolute = false) :
    ∃ gap, (gap = "" ∨ gap = "/") ∧ (path.join below).text = path.text ++ gap ++ below.text := by
  rw [join, if_neg (by simp [hrelative])]
  split_ifs
  · exact ⟨"", .inl rfl, by simp⟩
  · exact ⟨"/", .inr rfl, rfl⟩

theorem nul_not_mem_join {path below : Path} (hrelative : below.isAbsolute = false)
    (hpath : '\x00' ∉ path.text.toList) (hbelow : '\x00' ∉ below.text.toList) :
    '\x00' ∉ (path.join below).text.toList := by
  obtain ⟨gap, hgap, htext⟩ := text_join hrelative
  have hgapNul : '\x00' ∉ gap.toList := by
    rcases hgap with rfl | rfl <;> decide
  rw [htext]
  simp [hpath, hgapNul, hbelow]

theorem check_join_iff {path below : Path} (hrelative : below.isAbsolute = false)
    (hcheck : path.check = .ok ()) (hbelow : '\x00' ∉ below.text.toList) :
    (path.join below).check = .ok () ↔ (path.join below).text.utf8ByteSize ≤ pathLimit := by
  obtain ⟨hnul, -, hnonempty⟩ := check_eq_ok_iff.mp hcheck
  obtain ⟨gap, -, htext⟩ := path.text_join hrelative
  have hjoined : (path.join below).text ≠ "" := by
    rw [htext]
    simp [hnonempty]
  rw [check_eq_ok_iff]
  exact ⟨fun hpath => hpath.2.1,
    fun hshort => ⟨nul_not_mem_join hrelative hnul hbelow, hshort, hjoined⟩⟩

end Path

theorem Name.normal_injective : Function.Injective fun name : Name => Component.normal name.text := by
  rintro ⟨text, _⟩ ⟨more, _⟩ hname
  simpa using hname

theorem Location.eq_or_exists_mem_of_mem_path {location : Location} {c : Char}
    (hc : c ∈ location.path.text.toList) : c = '/' ∨ ∃ name ∈ location, c ∈ name.text.toList := by
  rw [path, Path.ofNames_eq_ofPieces, Path.ofPieces, String.toList_ofList] at hc
  simpa using eq_or_exists_mem_of_mem_intercalate hc

theorem Location.nul_not_mem_path (location : Location) :
    '\x00' ∉ location.path.text.toList := by
  intro hnul
  obtain hslash | ⟨name, -, hmem⟩ := eq_or_exists_mem_of_mem_path hnul
  · exact absurd hslash (by decide)
  · exact name.isEntryName.2.2.1 hmem

namespace SourceTree

variable {tree : SourceTree} {header : String} {location : Location}

theorem path_injective (tree : SourceTree) : Function.Injective tree.path := by
  intro location other hsame
  have hcomponents := congrArg Path.components hsame
  rw [path, path, Path.components_join _ location.isNormal_of_mem_path,
    Path.components_join _ other.isNormal_of_mem_path, location.components_path,
    other.components_path] at hcomponents
  exact Name.normal_injective.list_map (List.append_cancel_left hcomponents)

theorem find?_eq_some_path_iff :
    tree.find? header = some (tree.path location) ↔
      (tree.Matches header location ∧ tree.IsListed location) ∧
        ∀ other, tree.Matches header other ∧ tree.IsListed other →
          other = location ∨ location.bytes < other.bytes := by
  rw [find?_eq_some_iff]
  constructor
  · rintro ⟨found, hpath, hleast⟩
    rwa [tree.path_injective hpath]
  · intro hleast
    exact ⟨location, rfl, hleast⟩

theorem nul_not_mem_path {base : Location} (hbase : tree.files.locate tree.root = .ok base)
    (location : Location) : '\x00' ∉ (tree.path location).text.toList := by
  have hcheck := (FileSystem.resolve_eq_ok_iff.mp (FileSystem.locate_eq_ok_iff.mp hbase)).1
  exact Path.nul_not_mem_join location.isAbsolute_path (Path.check_eq_ok_iff.mp hcheck).1
    location.nul_not_mem_path

/-- Below a root that leads somewhere, only too long a path is refused. -/
theorem check_path {base : Location} (hbase : tree.files.locate tree.root = .ok base)
    (location : Location) :
    (tree.path location).check = .ok () ↔
      (tree.path location).text.utf8ByteSize ≤ pathLimit := by
  have hcheck := (FileSystem.resolve_eq_ok_iff.mp (FileSystem.locate_eq_ok_iff.mp hbase)).1
  exact Path.check_join_iff location.isAbsolute_path hcheck location.nul_not_mem_path

/-! ### A tree seen from its root -/

/-- The kind of what lies at a location, counted from the root of the tree. -/
def kind? (tree : SourceTree) : Kinds := fun location =>
  match tree.files.locate tree.root with
  | .ok base => tree.files.kind? (base ++ location)
  | .error _ => none

def contents? (tree : SourceTree) (location : Location) : Option (List UInt8) :=
  match tree.files.locate tree.root with
  | .ok base => tree.files.contents? (base ++ location)
  | .error _ => none

theorem kind?_of_contents? {contents : List UInt8}
    (hcontents : tree.contents? location = some contents) : tree.kind? location = some .file := by
  unfold contents? at hcontents
  unfold kind?
  cases hbase : tree.files.locate tree.root with
  | error fault => simp [hbase] at hcontents
  | ok base =>
      simp only [hbase] at hcontents ⊢
      exact FileSystem.kind?_of_contents? hcontents

theorem exists_contents?_of_kind? (hfile : tree.kind? location = some .file) :
    ∃ contents, tree.contents? location = some contents := by
  unfold kind? at hfile
  unfold contents?
  cases hbase : tree.files.locate tree.root with
  | error fault => simp [hbase] at hfile
  | ok base =>
      simp only [hbase] at hfile
      exact FileSystem.exists_contents_of_kind? hfile

theorem isLinkFree_kind? (hlinks : Kinds.IsLinkFree tree.files.kind?) :
    Kinds.IsLinkFree tree.kind? := by
  intro location target hkind
  unfold kind? at hkind
  cases hbase : tree.files.locate tree.root with
  | error fault => simp [hbase] at hkind
  | ok base =>
      simp only [hbase] at hkind
      exact hlinks _ _ hkind

theorem isEntry_iff_kind? :
    tree.IsEntry location ↔ location ≠ [] ∧ tree.kind? location ≠ none := by
  rw [isEntry_iff]
  unfold kind?
  cases tree.files.locate tree.root with
  | error fault => simp
  | ok base => simp

/-- Without links below the root, the path of an entry leads to the entry if it
is short enough, and nowhere otherwise. -/
theorem locate_path_eq_ok_iff (hlinks : Kinds.IsLinkFree tree.kind?)
    (hentry : tree.IsEntry location) {place : Location} :
    tree.files.locate (tree.path location) = .ok place ↔
      (tree.path location).text.utf8ByteSize ≤ pathLimit ∧
        ∃ base, tree.files.locate tree.root = .ok base ∧ place = base ++ location := by
  obtain ⟨hnonempty, base, hbase, hthere⟩ := isEntry_iff.mp hentry
  have hbelow : ∀ below target, tree.files.kind? (base ++ below) ≠ some (.link target) := by
    intro below target
    have hlink := hlinks below target
    simpa [kind?, hbase] using hlink
  rw [← check_path hbase]
  constructor
  · intro hlocate
    have hcheck := (FileSystem.resolve_eq_ok_iff.mp (FileSystem.locate_eq_ok_iff.mp hlocate)).1
    have hown := FileSystem.locate_join_path hbase hbelow hnonempty hthere hcheck
    refine ⟨hcheck, base, hbase, ?_⟩
    exact Except.ok.inj (hlocate.symm.trans hown)
  · rintro ⟨hcheck, base', hbase', rfl⟩
    obtain rfl : base = base' := Except.ok.inj (hbase.symm.trans hbase')
    exact FileSystem.locate_join_path hbase hbelow hnonempty hthere hcheck

theorem matches_iff (hlinks : Kinds.IsLinkFree tree.kind?) :
    tree.Matches header location ↔ tree.IsEntry location ∧
      (Path.mk header).components <:+ location.map (fun name => .normal name.text) ∧
        ((tree.path location).text.utf8ByteSize ≤ pathLimit →
          tree.kind? location ≠ some .directory) := by
  constructor
  · rintro ⟨hentry, hsuffix, hnot⟩
    refine ⟨hentry, hsuffix, ?_⟩
    intro hshort
    obtain ⟨-, base, hbase, -⟩ := isEntry_iff.mp hentry
    have hlocate := (locate_path_eq_ok_iff hlinks hentry).mpr ⟨hshort, base, hbase, rfl⟩
    simpa [kind?, hbase] using hnot _ hlocate
  · rintro ⟨hentry, hsuffix, hnot⟩
    refine ⟨hentry, hsuffix, ?_⟩
    intro place hlocate
    obtain ⟨hshort, base, hbase, rfl⟩ := (locate_path_eq_ok_iff hlinks hentry).mp hlocate
    simpa [kind?, hbase] using hnot hshort

theorem read_path_eq_ok_iff (hlinks : Kinds.IsLinkFree tree.kind?) (hentry : tree.IsEntry location)
    {contents : List UInt8} :
    tree.files.read (tree.path location) = .ok contents ↔
      (tree.path location).text.utf8ByteSize ≤ pathLimit ∧
        tree.contents? location = some contents := by
  obtain ⟨-, base, hbase, -⟩ := isEntry_iff.mp hentry
  simp only [FileSystem.read_eq_ok_iff, locate_path_eq_ok_iff hlinks hentry, contents?, hbase]
  constructor
  · rintro ⟨_, ⟨hshort, _, hsame, rfl⟩, hcontents⟩
    obtain rfl := Except.ok.inj hsame
    exact ⟨hshort, hcontents⟩
  · rintro ⟨hshort, hcontents⟩
    exact ⟨_, ⟨hshort, base, rfl, rfl⟩, hcontents⟩

/-- What a search answers with when it succeeds. -/
theorem search_eq_ok_iff (hlinks : Kinds.IsLinkFree tree.kind?) {tables : Tables} {name : String}
    {found : Located} :
    tree.search tables name = .ok found ↔
      ∃ location contents, found = ⟨tree.path location, dependencies contents⟩ ∧
        tree.find? (tables.searchName name) = some (tree.path location) ∧
          tree.IsEntry location ∧ (tree.path location).text.utf8ByteSize ≤ pathLimit ∧
            tree.contents? location = some contents := by
  constructor
  · intro hsearch
    obtain ⟨hfind, hincludes⟩ := search_eq_ok hsearch
    obtain ⟨location, hpath, ⟨hmatch, -⟩, -⟩ := find?_eq_some_iff.mp hfind
    obtain ⟨contents, hread, hnames⟩ := FileSystem.dependencies_eq_ok_iff.mp hincludes
    rw [hpath] at hread hfind
    obtain ⟨hshort, hcontents⟩ := (read_path_eq_ok_iff hlinks hmatch.entry).mp hread
    refine ⟨location, contents, ?_, hfind, hmatch.entry, hshort, hcontents⟩
    rw [← hpath, hnames]
  · rintro ⟨location, contents, rfl, hfind, hentry, hshort, hcontents⟩
    have hread := (read_path_eq_ok_iff hlinks hentry).mpr ⟨hshort, hcontents⟩
    have hincludes := FileSystem.dependencies_eq_ok_iff.mpr ⟨contents, hread, rfl⟩
    simp only [search, hfind, hincludes]

end SourceTree

end Freestanding
