import Freestanding.Proofs.ReachedNames
import Freestanding.Proofs.RootedPaths

/-!
# Trees without what is not located

A resolution that succeeds rests on the files that it locates.  Of the others
some may be deleted and some changed, and directories may go with them: among
fewer candidates the least one stays the least, and what the located files
include is as before.  So the names that are reached stay the same, and so does
the set.

The root must still lead to the tree.  A root such as `a/b/..` passes through a
directory below the place where it leads, and is lost when that directory goes.
-/

namespace Freestanding

def HeaderSet.paths (set : HeaderSet) : List Path :=
  set.entries.map Prod.snd

theorem HeaderSet.mem_paths_of_get?_eq_some {set : HeaderSet} {name : String} {path : Path}
    (hget : set.get? name = some path) : path ∈ set.paths :=
  List.mem_map.mpr ⟨(name, path), mem_entries_iff.mpr hget, rfl⟩

/-! ### Pruning -/

namespace Node

mutual

/-- A tree without the entries that are not to stay. -/
def pruned (stays : Location → Bool) : Node → Node
  | .file contents => .file contents
  | .link target => .link target
  | .directory entries => .directory (prunedEach stays entries)

def prunedEach (stays : Location → Bool) : List (Name × Node) → List (Name × Node)
  | [] => []
  | (name, node) :: rest =>
    if stays [name] then
      (name, node.pruned fun below => stays (name :: below)) :: prunedEach stays rest
    else prunedEach stays rest

end

variable {stays : Location → Bool} {location : Location}

theorem kind_pruned (stays : Location → Bool) (node : Node) :
    (node.pruned stays).kind = node.kind := by
  cases node <;> rfl

theorem contents?_pruned (stays : Location → Bool) (node : Node) :
    (node.pruned stays).contents? = node.contents? := by
  cases node <;> rfl

theorem lookup_prunedEach (stays : Location → Bool) (entries : List (Name × Node)) (name : Name) :
    (prunedEach stays entries).lookup name =
      if stays [name] then
        (entries.lookup name).map (pruned fun below => stays (name :: below))
      else none := by
  induction entries with
  | nil => simp [prunedEach]
  | cons entry rest ih =>
      obtain ⟨other, node⟩ := entry
      rw [prunedEach]
      by_cases hname : name = other
      · subst hname
        by_cases hstays : stays [name] = true
        · simp [hstays]
        · rw [if_neg hstays, ih, if_neg hstays, if_neg hstays]
      · rw [lookup_cons_of_ne hname]
        split_ifs with hother hstays hstays
        · rw [lookup_cons_of_ne hname, ih, if_pos hstays]
        · rw [lookup_cons_of_ne hname, ih, if_neg hstays]
        · rw [ih, if_pos hstays]
        · rw [ih, if_neg hstays]

theorem child?_pruned (stays : Location → Bool) (node : Node) (name : Name) :
    (node.pruned stays).child? name =
      if stays [name] then (node.child? name).map (pruned fun below => stays (name :: below))
      else none := by
  cases node with
  | file => simp [pruned, child?]
  | link => simp [pruned, child?]
  | directory entries => exact lookup_prunedEach stays entries name

theorem exists_of_get?_pruned {node found : Node}
    (hget : (node.pruned stays).get? location = some found) :
    ∃ whole, node.get? location = some whole ∧ found.kind = whole.kind := by
  induction location generalizing node stays with
  | nil =>
      obtain rfl : node.pruned stays = found := Option.some.inj hget
      exact ⟨node, rfl, kind_pruned stays node⟩
  | cons name rest ih =>
      obtain ⟨child, hchild, hrest⟩ := Option.bind_eq_some_iff.mp hget
      rw [child?_pruned] at hchild
      split_ifs at hchild
      obtain ⟨whole, hwhole, rfl⟩ := Option.map_eq_some_iff.mp hchild
      rw [get?, hwhole]
      exact ih hrest

theorem get?_pruned (node : Node)
    (hstays : ∀ above, above <+: location → above ≠ [] → stays above = true) :
    (node.pruned stays).get? location =
      (node.get? location).map (pruned fun below => stays (location ++ below)) := by
  induction location generalizing node stays with
  | nil => rfl
  | cons name rest ih =>
      have hname : stays [name] = true := hstays [name] ⟨rest, rfl⟩ (by simp)
      have hrest (above : Location) (habove : above <+: rest) (_ : above ≠ []) :
          stays (name :: above) = true :=
        hstays _ (List.cons_prefix_cons.mpr ⟨rfl, habove⟩) (by simp)
      rw [get?, get?, child?_pruned, if_pos hname]
      cases node.child? name with
      | none => rfl
      | some child => exact ih child hrest

theorem map_fst_prunedEach (stays : Location → Bool) (entries : List (Name × Node)) :
    (prunedEach stays entries).map Prod.fst =
      (entries.map Prod.fst).filter fun name => stays [name] := by
  induction entries with
  | nil => rfl
  | cons entry rest ih =>
      rw [prunedEach, List.map_cons, List.filter_cons]
      split_ifs
      · rw [List.map_cons, ih]
      · exact ih

theorem exists_of_mem_prunedEach {entries : List (Name × Node)} {entry : Name × Node}
    (hentry : entry ∈ prunedEach stays entries) :
    ∃ whole ∈ entries, ∃ below, entry.2 = whole.2.pruned below := by
  induction entries with
  | nil => simp [prunedEach] at hentry
  | cons first rest ih =>
      rw [prunedEach] at hentry
      split_ifs at hentry
      · rcases List.mem_cons.mp hentry with rfl | hentry
        · exact ⟨first, List.mem_cons_self, _, rfl⟩
        · obtain ⟨whole, hwhole, hbelow⟩ := ih hentry
          exact ⟨whole, List.mem_cons_of_mem _ hwhole, hbelow⟩
      · obtain ⟨whole, hwhole, hbelow⟩ := ih hentry
        exact ⟨whole, List.mem_cons_of_mem _ hwhole, hbelow⟩

theorem Distinct.pruned {node : Node} (hdistinct : node.Distinct) (stays : Location → Bool) :
    (node.pruned stays).Distinct := by
  induction hdistinct generalizing stays with
  | file => exact .file
  | link => exact .link
  | @directory entries hnames _ ih =>
      refine .directory ?_ ?_
      · rw [map_fst_prunedEach]
        exact hnames.filter _
      · intro entry hentry
        obtain ⟨whole, hwhole, below, hbelow⟩ := exists_of_mem_prunedEach hentry
        rw [hbelow]
        exact ih whole hwhole below

end Node

namespace FileSystem

variable {files : FileSystem} {stays : Location → Bool} {location : Location}

def pruned (files : FileSystem) (stays : Location → Bool) : FileSystem where
  root := files.root.pruned stays
  current := files.current
  distinct := files.distinct.pruned stays

theorem extends_kind?_pruned (files : FileSystem) (stays : Location → Bool) :
    Kinds.Extends (files.pruned stays).kind? files.kind? := by
  intro location kind hkind
  obtain ⟨found, hfound, rfl⟩ := Option.map_eq_some_iff.mp hkind
  obtain ⟨whole, hwhole, hsame⟩ := Node.exists_of_get?_pruned hfound
  rw [kind?, hwhole, Option.map_some, hsame]

theorem contents?_pruned (files : FileSystem)
    (hstays : ∀ above, above <+: location → above ≠ [] → stays above = true) :
    (files.pruned stays).contents? location = files.contents? location := by
  rw [contents?, contents?, pruned, Node.get?_pruned files.root hstays]
  cases files.root.get? location with
  | none => rfl
  | some node => exact Node.contents?_pruned _ node

end FileSystem

/-! ### What a resolution rests on -/

namespace SourceTree

variable {tree : SourceTree} {tables : Tables} {headers : List String} {set : HeaderSet}
  {files : FileSystem} {name header : String} {location : Location} {found : Located}

/-- Whether a file system keeps of a source tree what a header set locates:
nothing has come to lie below the root that was not there, and the located files
are there with their contents. -/
structure KeepsLocated (tree : SourceTree) (set : HeaderSet) (files : FileSystem) : Prop where
  kinds : Kinds.Extends (SourceTree.mk files tree.root).kind? tree.kind?
  located : ∀ location, tree.IsEntry location → tree.path location ∈ set.paths →
    (SourceTree.mk files tree.root).contents? location = tree.contents? location

theorem keepsLocated_iff :
    tree.KeepsLocated set files ↔
      (∀ location ∈ [] :: (SourceTree.mk files tree.root).locations,
        ∀ kind ∈ (SourceTree.mk files tree.root).kind? location,
          tree.kind? location = some kind) ∧
        ∀ location ∈ tree.locations, tree.path location ∈ set.paths →
          (SourceTree.mk files tree.root).contents? location = tree.contents? location := by
  constructor
  · intro hkeeps
    refine ⟨fun location _ kind hkind => hkeeps.kinds location kind hkind, ?_⟩
    intro location hlocation
    exact hkeeps.located location (mem_locations_iff.mp hlocation)
  · rintro ⟨hkinds, hlocated⟩
    constructor
    · intro location kind hkind
      refine hkinds location ?_ kind hkind
      by_cases hroot : location = []
      · exact hroot ▸ List.mem_cons_self
      · refine List.mem_cons_of_mem _ (mem_locations_iff.mpr ?_)
        exact isEntry_iff_kind?.mpr ⟨hroot, by simp [hkind]⟩
    · intro location hentry
      exact hlocated location (mem_locations_iff.mpr hentry)

instance (tree : SourceTree) (set : HeaderSet) (files : FileSystem) :
    Decidable (tree.KeepsLocated set files) :=
  decidable_of_iff' _ keepsLocated_iff

theorem KeepsLocated.isLinkFree (hkeeps : tree.KeepsLocated set files)
    (hlinks : Kinds.IsLinkFree tree.kind?) :
    Kinds.IsLinkFree (SourceTree.mk files tree.root).kind? :=
  fun location target hkind => hlinks location target (hkeeps.kinds _ _ hkind)

theorem KeepsLocated.matches_of_matches (hkeeps : tree.KeepsLocated set files)
    (hlinks : Kinds.IsLinkFree tree.kind?)
    (hmatch : (SourceTree.mk files tree.root).Matches header location) :
    tree.Matches header location := by
  rw [matches_iff (hkeeps.isLinkFree hlinks), isEntry_iff_kind?] at hmatch
  obtain ⟨⟨hnonempty, hthere⟩, hsuffix, hnot⟩ := hmatch
  obtain ⟨kind, hkind⟩ := Option.ne_none_iff_exists'.mp hthere
  have hbefore := hkeeps.kinds _ _ hkind
  rw [matches_iff hlinks, isEntry_iff_kind?, hbefore]
  refine ⟨⟨hnonempty, by simp⟩, hsuffix, ?_⟩
  rw [← hkind]
  exact hnot

/-- The least match stays the least one if it stays a match. -/
theorem KeepsLocated.find?_eq (hkeeps : tree.KeepsLocated set files)
    (hlinks : Kinds.IsLinkFree tree.kind?)
    (hfind : tree.find? header = some (tree.path location))
    (hmatch : (SourceTree.mk files tree.root).Matches header location) :
    (SourceTree.mk files tree.root).find? header = some (tree.path location) := by
  obtain ⟨⟨-, hlisted⟩, hleast⟩ := find?_eq_some_path_iff.mp hfind
  apply find?_eq_some_path_iff.mpr
  refine ⟨⟨hmatch, hlisted⟩, ?_⟩
  rintro other ⟨hother, hotherListed⟩
  exact hleast other ⟨hkeeps.matches_of_matches hlinks hother, hotherListed⟩

theorem KeepsLocated.search_eq (hkeeps : tree.KeepsLocated set files)
    (hlinks : Kinds.IsLinkFree tree.kind?) (hlocated : found.location ∈ set.paths)
    (hsearch : tree.search tables name = .ok found) :
    (SourceTree.mk files tree.root).search tables name = .ok found := by
  obtain ⟨location, contents, rfl, hfind, hentry, hshort, hcontents⟩ :=
    (search_eq_ok_iff hlinks).mp hsearch
  have hagain : (SourceTree.mk files tree.root).contents? location = some contents := by
    rw [hkeeps.located location hentry hlocated, hcontents]
  have hfile := kind?_of_contents? hagain
  have hentryAgain : (SourceTree.mk files tree.root).IsEntry location :=
    isEntry_iff_kind?.mpr ⟨hentry.ne_nil, by simp [hfile]⟩
  have hsuffix := (find?_eq_some_path_iff.mp hfind).1.1.suffix
  have hmatch : (SourceTree.mk files tree.root).Matches (tables.searchName name) location := by
    rw [matches_iff (hkeeps.isLinkFree hlinks), hfile]
    exact ⟨hentryAgain, hsuffix, by simp⟩
  rw [search_eq_ok_iff (hkeeps.isLinkFree hlinks)]
  exact ⟨location, contents, rfl, hkeeps.find?_eq hlinks hfind hmatch, hentryAgain, hshort, hagain⟩

/-- The file system without what is below the root and not on the way to a
located file. -/
def pruned (tree : SourceTree) (set : HeaderSet) : FileSystem :=
  match tree.files.locate tree.root with
  | .error _ => tree.files
  | .ok base =>
    tree.files.pruned fun location =>
      !base.isPrefixOf location ||
        ([] :: tree.locations.filter (tree.path · ∈ set.paths)).any fun below =>
          location.isPrefixOf (base ++ below)

theorem keepsLocated_pruned
    (hroot : (tree.pruned set).locate tree.root = tree.files.locate tree.root) :
    tree.KeepsLocated set (tree.pruned set) := by
  constructor
  · intro location kind hkind
    unfold kind? at hkind ⊢
    dsimp only at hkind
    rw [hroot] at hkind
    unfold pruned at hkind
    cases hbase : tree.files.locate tree.root with
    | error fault => simp [hbase] at hkind
    | ok base =>
        simp only [hbase] at hkind ⊢
        exact tree.files.extends_kind?_pruned _ _ _ hkind
  · intro location hentry hlocated
    unfold contents?
    dsimp only
    rw [hroot]
    unfold pruned
    cases hbase : tree.files.locate tree.root with
    | error fault => rfl
    | ok base =>
        simp only
        apply FileSystem.contents?_pruned
        intro above habove _
        rw [Bool.or_eq_true, List.any_eq_true]
        refine .inr ⟨location, ?_, by simpa using habove⟩
        refine List.mem_cons_of_mem _ (List.mem_filter.mpr ⟨mem_locations_iff.mpr hentry, ?_⟩)
        simpa using hlocated

/-- If there are no links below the root, a resolution that succeeds comes to the
same set when files that it does not locate are deleted or changed and
directories without located files are deleted, provided that the root still
leads to the tree.  In particular it does so in the tree pruned to the located
files. -/
theorem resolve_rests_on_located (hlinks : Kinds.IsLinkFree tree.kind?)
    (hresolve : (tree.resolve tables headers).outcome = .ok set) :
    (∀ files, tree.KeepsLocated set files →
        ((SourceTree.mk files tree.root).resolve tables headers).outcome = .ok set) ∧
      ((tree.pruned set).locate tree.root = tree.files.locate tree.root →
        ((SourceTree.mk (tree.pruned set) tree.root).resolve tables headers).outcome =
          .ok set) := by
  have hkept (files : FileSystem) (hkeeps : tree.KeepsLocated set files) :
      ((SourceTree.mk files tree.root).resolve tables headers).outcome = .ok set := by
    rw [resolve_eq_ok_iff] at hresolve ⊢
    apply hresolve.of_search_eq
    intro name found hget hsearch
    exact hkeeps.search_eq hlinks (HeaderSet.mem_paths_of_get?_eq_some hget) hsearch
  exact ⟨hkept, fun hroot => hkept _ (keepsLocated_pruned hroot)⟩

/-- Two headers, another file of a header's name and a directory with none. -/
def scatteredTree : SourceTree where
  files := {
    root := .directory [(.of "a", .directory
      [(.of "d", .directory [(.of "two", .file [])]),
        (.of "c", .directory [(.of "junk", .file [])]),
        (.of "b", .directory [(.of "two", .file [])]),
        (.of "one", .file (Utf8.encode "#include <two>\n"))])]
    current := []
    distinct := by
      refine .directory (by decide) (List.forall_mem_singleton.mpr ?_)
      refine .directory (by decide) ?_
      simp only [List.mem_cons, List.not_mem_nil, or_false]
      rintro entry (rfl | rfl | rfl | rfl)
      · exact .directory (by decide) (List.forall_mem_singleton.mpr .file)
      · exact .directory (by decide) (List.forall_mem_singleton.mpr .file)
      · exact .directory (by decide) (List.forall_mem_singleton.mpr .file)
      · exact .file
  }
  root := ⟨"a"⟩

def scatteredSet : HeaderSet :=
  .insertMany .empty [("one", ⟨"a/one"⟩), ("two", ⟨"a/b/two"⟩)]

def clearedFiles : FileSystem :=
  (scatteredTree.files.remove ⟨"a/c"⟩ >>= fun left =>
    left.write ⟨"a/d/two"⟩ (Utf8.encode "#include <three>\n")).toOption.getD .empty

theorem resolve_rests_on_located_scattered :
    Kinds.IsLinkFree scatteredTree.kind? ∧
      (scatteredTree.resolve .standard ["one"]).outcome = .ok scatteredSet ∧
      scatteredTree.KeepsLocated scatteredSet clearedFiles ∧
      ((SourceTree.mk clearedFiles scatteredTree.root).resolve .standard ["one"]).outcome =
        .ok scatteredSet ∧
      (scatteredTree.pruned scatteredSet).locate scatteredTree.root =
        scatteredTree.files.locate scatteredTree.root ∧
      ((SourceTree.mk (scatteredTree.pruned scatteredSet) scatteredTree.root).resolve .standard
        ["one"]).outcome = .ok scatteredSet := by
  have hlinks : Kinds.IsLinkFree scatteredTree.kind? := isLinkFree_kind? (by decide +kernel)
  have hresolve : (scatteredTree.resolve .standard ["one"]).outcome = .ok scatteredSet := rfl
  have hkeeps : scatteredTree.KeepsLocated scatteredSet clearedFiles := by decide +kernel
  have hroot : (scatteredTree.pruned scatteredSet).locate scatteredTree.root =
      scatteredTree.files.locate scatteredTree.root := by
    decide +kernel
  obtain ⟨hkept, hpruned⟩ := resolve_rests_on_located hlinks hresolve
  exact ⟨hlinks, hresolve, hkeeps, hkept _ hkeeps, hroot, hpruned hroot⟩

/-! ### A root that is lost -/

/-- A header in a directory that the root leads to by way of another one. -/
def detourTree : SourceTree where
  files := {
    root := .directory [(.of "a", .directory
      [(.of "b", .directory [(.of "junk", .file [])]),
        (.of "cstddef", .file [])])]
    current := []
    distinct := by
      refine .directory (by decide) (List.forall_mem_singleton.mpr ?_)
      refine .directory (by decide) ?_
      simp only [List.mem_cons, List.not_mem_nil, or_false]
      rintro entry (rfl | rfl)
      · exact .directory (by decide) (List.forall_mem_singleton.mpr .file)
      · exact .file
  }
  root := ⟨"a/b/.."⟩

def detourSet : HeaderSet :=
  .insertMany .empty [("cstddef", ⟨"a/b/../cstddef"⟩)]

def emptiedDetour : FileSystem :=
  (detourTree.files.remove ⟨"a/b/junk"⟩).toOption.getD .empty

def lostDetour : FileSystem :=
  (emptiedDetour.remove ⟨"a/b"⟩).toOption.getD .empty

/-- A file that is not located is deleted and then the directory that is empty
without it, but the root led through that directory. -/
theorem resolve_loses_root :
    Kinds.IsLinkFree detourTree.kind? ∧
      (detourTree.resolve .standard ["cstddef"]).outcome = .ok detourSet ∧
      detourSet.paths = [⟨"a/b/../cstddef"⟩] ∧
      detourTree.files.remove ⟨"a/b/junk"⟩ = .ok emptiedDetour ∧
      emptiedDetour.node? ⟨"a/b"⟩ = some (.directory []) ∧
      emptiedDetour.remove ⟨"a/b"⟩ = .ok lostDetour ∧
      ((SourceTree.mk lostDetour detourTree.root).resolve .standard ["cstddef"]).outcome =
        .error (.notFound "cstddef" detourTree.root) := by
  have hlinks : Kinds.IsLinkFree detourTree.kind? := isLinkFree_kind? (by decide +kernel)
  exact ⟨hlinks, rfl, rfl, rfl, rfl, rfl, rfl⟩

end SourceTree

end Freestanding
