import Freestanding.Proofs.ReachedNames
import Freestanding.Proofs.RootedPaths

/-!
# Trees at other roots

A resolution depends on what lies below the root of its source tree, not on where
the root is or how it is written.  Two trees with the same below their roots are
searched and read alike, so their resolutions come to the same names at the same
locations, or fail to find the same one.  The names in the path of the root make
no match.

For this the paths of the entries must not be too long below either root, since
nothing behind such a path is found or read.
-/

namespace Freestanding

theorem HeaderSet.names_eq_of_mem_iff {set other : HeaderSet}
    (hmem : ∀ name, name ∈ set.names ↔ name ∈ other.names) : set.names = other.names := by
  have hsorted (set : HeaderSet) : set.names.Pairwise (· < ·) :=
    List.pairwise_map.mpr set.increasing
  exact eq_of_pairwise_of_mem_iff (fun _ _ => String.lt_asymm) (hsorted set) (hsorted other) hmem

namespace SourceTree

variable {tree other : SourceTree} {tables : Tables} {name header : String}
  {location : Location} {set moved : HeaderSet}

/-! ### Matches below the root -/

/-- Whether the paths of all entries are short enough to be followed. -/
def HasShortPaths (tree : SourceTree) : Prop :=
  ∀ location, tree.IsEntry location → (tree.path location).text.utf8ByteSize ≤ pathLimit

theorem hasShortPaths_iff :
    tree.HasShortPaths ↔
      ∀ location ∈ tree.locations, (tree.path location).text.utf8ByteSize ≤ pathLimit := by
  simp only [mem_locations_iff, HasShortPaths]

instance (tree : SourceTree) : Decidable tree.HasShortPaths :=
  decidable_of_iff' _ hasShortPaths_iff

theorem IsEntry.dropLast (hentry : tree.IsEntry location) (habove : location.dropLast ≠ []) :
    tree.IsEntry location.dropLast := by
  obtain ⟨hnonempty, base, hbase, -, hdirectories⟩ := hentry
  have hne : location.dropLast ≠ location := by
    intro hsame
    have hlength := congrArg List.length hsame
    have hpositive := List.length_pos_iff.mpr hnonempty
    rw [List.length_dropLast] at hlength
    omega
  refine isEntry_iff.mpr ⟨habove, base, hbase, ?_⟩
  rw [hdirectories _ (List.dropLast_prefix location) hne]
  simp

theorem HasShortPaths.isListed (hshort : tree.HasShortPaths) (hentry : tree.IsEntry location) :
    tree.IsListed location :=
  fun habove => hshort _ (hentry.dropLast habove)

theorem matches_and_isListed_iff (hlinks : Kinds.IsLinkFree tree.kind?)
    (hshort : tree.HasShortPaths) :
    tree.Matches header location ∧ tree.IsListed location ↔
      location ≠ [] ∧ tree.kind? location = some .file ∧
        (Path.mk header).components <:+ location.map fun name => .normal name.text := by
  rw [matches_iff hlinks]
  constructor
  · rintro ⟨⟨hentry, hsuffix, hnot⟩, -⟩
    obtain ⟨hnonempty, hthere⟩ := isEntry_iff_kind?.mp hentry
    refine ⟨hnonempty, ?_, hsuffix⟩
    obtain ⟨kind, hkind⟩ := Option.ne_none_iff_exists'.mp hthere
    cases kind with
    | file => exact hkind
    | link target => exact absurd hkind (hlinks _ _)
    | directory => exact absurd hkind (hnot (hshort _ hentry))
  · rintro ⟨hnonempty, hfile, hsuffix⟩
    have hentry : tree.IsEntry location := isEntry_iff_kind?.mpr ⟨hnonempty, by simp [hfile]⟩
    exact ⟨⟨hentry, hsuffix, by simp [hfile]⟩, hshort.isListed hentry⟩

/-! ### The same below two roots -/

structure SameBelow (tree other : SourceTree) : Prop where
  kinds : other.kind? = tree.kind?
  contents : other.contents? = tree.contents?

theorem view_of_node?_eq_some {node : Node} (hnode : tree.files.node? tree.root = some node) :
    tree.kind? = (fun location => (node.get? location).map Node.kind) ∧
      tree.contents? = fun location => (node.get? location).bind Node.contents? := by
  unfold FileSystem.node? at hnode
  unfold kind? contents?
  cases hbase : tree.files.locate tree.root with
  | error fault => simp [hbase] at hnode
  | ok base =>
      simp only [hbase] at hnode
      simp [FileSystem.kind?, FileSystem.contents?, Node.get?_append, hnode]

theorem SameBelow.of_node?_eq_some {node : Node}
    (hnode : tree.files.node? tree.root = some node)
    (hother : other.files.node? other.root = some node) : tree.SameBelow other := by
  obtain ⟨hkinds, hcontents⟩ := view_of_node?_eq_some hnode
  obtain ⟨hkindsOther, hcontentsOther⟩ := view_of_node?_eq_some hother
  exact ⟨hkindsOther.trans hkinds.symm, hcontentsOther.trans hcontents.symm⟩

theorem SameBelow.isLinkFree (hsame : tree.SameBelow other)
    (hlinks : Kinds.IsLinkFree tree.kind?) : Kinds.IsLinkFree other.kind? := by
  rwa [hsame.kinds]

/-- Whether two paths lead to one location from the roots of two trees. -/
def SamePlace (tree other : SourceTree) (path moved : Path) : Prop :=
  ∃ location, path = tree.path location ∧ moved = other.path location

/-- Whether two trees come to the same: both succeed, with the same seen from
their roots, or both fail to find anything under one name. -/
inductive SameOutcome {α : Type} (tree other : SourceTree) (same : α → α → Prop) :
    Except SearchError α → Except SearchError α → Prop
  | ok {result moved : α} (hsame : same result moved) :
      SameOutcome tree other same (.ok result) (.ok moved)
  | notFound (searchName : String) :
      SameOutcome tree other same (.error (.notFound searchName tree.root))
        (.error (.notFound searchName other.root))

theorem SameOutcome.imp {α : Type} {same related : α → α → Prop}
    {outcome moved : Except SearchError α} (houtcome : SameOutcome tree other same outcome moved)
    (himp : ∀ result moved, same result moved → related result moved) :
    SameOutcome tree other related outcome moved := by
  cases houtcome with
  | ok hsame => exact .ok (himp _ _ hsame)
  | notFound searchName => exact .notFound searchName

structure SameLocated (tree other : SourceTree) (found moved : Located) : Prop where
  place : tree.SamePlace other found.location moved.location
  includes : moved.includes = found.includes

section Search

variable (hsame : tree.SameBelow other) (hlinks : Kinds.IsLinkFree tree.kind?)
  (hshort : tree.HasShortPaths) (hmoved : other.HasShortPaths)

include hsame hlinks hshort hmoved

theorem SameBelow.matches_and_isListed_iff :
    other.Matches header location ∧ other.IsListed location ↔
      tree.Matches header location ∧ tree.IsListed location := by
  rw [SourceTree.matches_and_isListed_iff (hsame.isLinkFree hlinks) hmoved,
    SourceTree.matches_and_isListed_iff hlinks hshort, hsame.kinds]

theorem SameBelow.find?_eq_some_iff :
    other.find? header = some (other.path location) ↔
      tree.find? header = some (tree.path location) := by
  simp only [find?_eq_some_path_iff, hsame.matches_and_isListed_iff hlinks hshort hmoved]

theorem SameBelow.find?_eq_none_iff :
    other.find? header = none ↔ tree.find? header = none := by
  simp only [SourceTree.find?_eq_none_iff, hsame.matches_and_isListed_iff hlinks hshort hmoved]

theorem SameBelow.search (tables : Tables) (name : String) :
    SameOutcome tree other (tree.SameLocated other) (tree.search tables name)
      (other.search tables name) := by
  cases hfind : tree.find? (tables.searchName name) with
  | none =>
      have hfindOther := (hsame.find?_eq_none_iff hlinks hshort hmoved).mpr hfind
      simp only [SourceTree.search, hfind, hfindOther]
      exact .notFound _
  | some path =>
      obtain ⟨location, rfl, hmatch, -⟩ := SourceTree.find?_eq_some_iff.mp hfind
      obtain ⟨-, hfile, -⟩ := (SourceTree.matches_and_isListed_iff hlinks hshort).mp hmatch
      obtain ⟨contents, hcontents⟩ := exists_contents?_of_kind? hfile
      have hentry : tree.IsEntry location := hmatch.1.entry
      have hentryOther : other.IsEntry location := by
        rw [isEntry_iff_kind?, hsame.kinds]
        exact isEntry_iff_kind?.mp hentry
      have hsearch := (search_eq_ok_iff hlinks).mpr
        ⟨location, contents, rfl, hfind, hentry, hshort _ hentry, hcontents⟩
      have hfindOther := (hsame.find?_eq_some_iff hlinks hshort hmoved).mpr hfind
      have hcontentsOther : other.contents? location = some contents := by
        rw [hsame.contents, hcontents]
      have hsearchOther := (search_eq_ok_iff (hsame.isLinkFree hlinks)).mpr
        ⟨location, contents, rfl, hfindOther, hentryOther, hmoved _ hentryOther, hcontentsOther⟩
      rw [hsearch, hsearchOther]
      exact .ok ⟨⟨location, rfl, rfl⟩, rfl⟩

end Search

/-! ### Runs below two roots -/

structure SameRound (tree other : SourceTree) (round moved : Round) : Prop where
  found : List.Forall₂
    (fun entry more => more.1 = entry.1 ∧ tree.SameLocated other entry.2 more.2)
    round.found moved.found
  failure : (round.failure = none ∧ moved.failure = none) ∨
    ∃ name searchName, round.failure = some (name, .notFound searchName tree.root) ∧
      moved.failure = some (name, .notFound searchName other.root)

/-- Whether two header sets hold the same names at the same locations below the
roots of two trees. -/
def SameSet (tree other : SourceTree) (set moved : HeaderSet) : Prop :=
  ∀ name, Option.Rel (tree.SamePlace other) (set.get? name) (moved.get? name)

theorem SameRound.discovered_eq {round moved : Round} (hround : tree.SameRound other round moved) :
    moved.discovered = round.discovered := by
  have hfound := hround.found
  unfold Round.discovered
  generalize round.found = found at hfound ⊢
  generalize moved.found = more at hfound ⊢
  induction hfound with
  | nil => rfl
  | cons hentry _ ih => rw [List.flatMap_cons, List.flatMap_cons, hentry.2.includes, ih]

theorem SameSet.insert {path more : Path} (hset : tree.SameSet other set moved)
    (hplace : tree.SamePlace other path more) (name : String) :
    tree.SameSet other (set.insert name path) (moved.insert name more) := by
  intro key
  rw [HeaderSet.get?_insert, HeaderSet.get?_insert]
  split_ifs
  · exact .some hplace
  · exact hset key

theorem SameSet.insertMany {round more : Round} (hset : tree.SameSet other set moved)
    (hround : tree.SameRound other round more) :
    tree.SameSet other (set.insertMany round.located) (moved.insertMany more.located) := by
  have hfound := hround.found
  unfold Round.located
  generalize round.found = found at hfound ⊢
  generalize more.found = others at hfound ⊢
  induction hfound generalizing set moved with
  | nil => exact hset
  | cons hentry _ ih =>
      rw [List.map_cons, List.map_cons, hentry.1]
      exact ih (hset.insert hentry.2.place _)

theorem SameSet.contains_eq (hset : tree.SameSet other set moved) (name : String) :
    moved.contains name = set.contains name := by
  have hname := hset name
  unfold HeaderSet.contains
  generalize set.get? name = place at hname ⊢
  generalize moved.get? name = more at hname ⊢
  cases hname with
  | some => rfl
  | none => rfl

theorem SameSet.pending_eq (hset : tree.SameSet other set moved) (tables : Tables)
    (discovered : List String) :
    tables.pending moved discovered = tables.pending set discovered := by
  simp only [Tables.pending, hset.contains_eq]

theorem SameSet.names_eq (hset : tree.SameSet other set moved) : moved.names = set.names := by
  apply HeaderSet.names_eq_of_mem_iff
  intro name
  rw [← HeaderSet.contains_iff_mem_names, ← HeaderSet.contains_iff_mem_names, hset.contains_eq]

theorem SameSet.exists_location (hset : tree.SameSet other set moved) (hname : name ∈ set.names) :
    ∃ location, set.get? name = some (tree.path location) ∧
      moved.get? name = some (other.path location) := by
  obtain ⟨path, hget⟩ := HeaderSet.mem_names_iff.mp hname
  have hplace := hset name
  rw [hget] at hplace ⊢
  generalize moved.get? name = more at hplace ⊢
  cases hplace with
  | some hplace =>
      obtain ⟨location, rfl, rfl⟩ := hplace
      exact ⟨location, rfl, rfl⟩

section Runs

variable (hsearch : ∀ name, SameOutcome tree other (tree.SameLocated other)
  (tree.search tables name) (other.search tables name))

include hsearch

theorem sameRound_round (names : List String) :
    tree.SameRound other (tree.round tables names) (other.round tables names) := by
  induction names with
  | nil => exact ⟨.nil, .inl ⟨rfl, rfl⟩⟩
  | cons name rest ih =>
      have hname := hsearch name
      unfold round
      generalize tree.search tables name = outcome at hname ⊢
      generalize other.search tables name = moved at hname ⊢
      cases hname with
      | ok hlocated => exact ⟨.cons ⟨rfl, hlocated⟩ ih.found, ih.failure⟩
      | notFound searchName => exact ⟨.nil, .inr ⟨name, searchName, rfl, rfl⟩⟩

theorem sameOutcome_resolveFrom (hset : tree.SameSet other set moved) (limit : Nat)
    (pending : List String) :
    SameOutcome tree other (tree.SameSet other)
      (tree.resolveFrom tables limit set pending).outcome
      (other.resolveFrom tables limit moved pending).outcome := by
  induction limit generalizing set moved pending with
  | zero => cases pending <;> exact .ok hset
  | succ limit ih =>
      cases pending with
      | nil => exact .ok hset
      | cons first rest =>
          have hround := sameRound_round hsearch (first :: rest)
          unfold resolveFrom
          rcases hround.failure with ⟨hnone, hnoneOther⟩ | ⟨name, searchName, hsome, hsomeOther⟩
          · have hlater := hset.insertMany hround
            simp only [hnone, hnoneOther, hround.discovered_eq, hlater.pending_eq]
            exact ih hlater _
          · simp only [hsome, hsomeOther]
            exact .notFound searchName

end Runs

theorem sameSet_empty (tree other : SourceTree) : tree.SameSet other .empty .empty := by
  intro name
  exact .none

/-- Below two roots with the same below them and no links, where the paths of all
entries are short enough, a resolution comes to the same: to sets with the same
names, each at one location below both roots, or to a failure to find anything
under one name.  A search finds the same location below both roots, and only the
names on the way from the root to it count. -/
theorem resolve_isRelocatable (hsame : tree.SameBelow other)
    (hlinks : Kinds.IsLinkFree tree.kind?) (hshort : tree.HasShortPaths)
    (hmoved : other.HasShortPaths) (tables : Tables) (headers : List String) :
    SameOutcome tree other
        (fun set moved => moved.names = set.names ∧ ∀ name ∈ set.names, ∃ location,
          set.get? name = some (tree.path location) ∧
            moved.get? name = some (other.path location))
        (tree.resolve tables headers).outcome (other.resolve tables headers).outcome ∧
      (∀ header location, tree.find? header = some (tree.path location) ↔
        other.find? header = some (other.path location)) ∧
      ∀ header path, tree.find? header = some path →
        ∃ location, path = tree.path location ∧
          (Path.mk header).components <:+ location.map fun name => .normal name.text := by
  refine ⟨?_, ?_, ?_⟩
  · -- Both run for as many rounds as the larger tree may need.
    have hrun := sameOutcome_resolveFrom (hsame.search hlinks hshort hmoved tables)
      (sameSet_empty tree other) (max tree.capacity other.capacity + 1) headers
    rw [resolveFrom_eq_resolve (by omega), resolveFrom_eq_resolve (by omega)] at hrun
    apply hrun.imp
    intro set moved hset
    exact ⟨hset.names_eq, fun name => hset.exists_location⟩
  · intro header location
    exact (hsame.find?_eq_some_iff hlinks hshort hmoved).symm
  · intro header path hfind
    obtain ⟨location, hpath, ⟨hmatch, -⟩, -⟩ := SourceTree.find?_eq_some_iff.mp hfind
    exact ⟨location, hpath, hmatch.suffix⟩

/-- A header whose name has the directory that one of the roots is called, and
files of the other part of its name. -/
def configuredNode : Node :=
  .directory
    [(.of "c++config", .file []),
      (.of "cstdarg", .file (Utf8.encode "#include <bits/c++config.h>\n")),
      (.of "deep", .directory
        [(.of "bits", .directory [(.of "c++config", .file [])])])]

theorem distinct_configuredNode : configuredNode.Distinct := by
  refine .directory (by decide) ?_
  simp only [List.mem_cons, List.not_mem_nil, or_false]
  rintro entry (rfl | rfl | rfl)
  · exact .file
  · exact .file
  · refine .directory (by decide) (List.forall_mem_singleton.mpr ?_)
    exact .directory (by decide) (List.forall_mem_singleton.mpr .file)

def bitsTree : SourceTree where
  files := {
    root := .directory [(.of "bits", configuredNode)]
    current := []
    distinct := .directory (by decide) (List.forall_mem_singleton.mpr distinct_configuredNode)
  }
  root := ⟨"bits"⟩

def nestedTree : SourceTree where
  files := {
    root := .directory [(.of "a", .directory [(.of "b", configuredNode)])]
    current := [.of "a"]
    distinct := by
      refine .directory (by decide) (List.forall_mem_singleton.mpr ?_)
      exact .directory (by decide) (List.forall_mem_singleton.mpr distinct_configuredNode)
  }
  root := ⟨"../a/b/"⟩

def bitsSet : HeaderSet :=
  .insertMany .empty
    [("bits/c++config.h", ⟨"bits/deep/bits/c++config"⟩), ("cstdarg", ⟨"bits/cstdarg"⟩)]

def nestedSet : HeaderSet :=
  .insertMany .empty
    [("bits/c++config.h", ⟨"../a/b/deep/bits/c++config"⟩), ("cstdarg", ⟨"../a/b/cstdarg"⟩)]

theorem resolve_isRelocatable_bits :
    bitsTree.SameBelow nestedTree ∧ Kinds.IsLinkFree bitsTree.kind? ∧
      bitsTree.HasShortPaths ∧ nestedTree.HasShortPaths ∧
      (bitsTree.resolve .standard ["cstdarg"]).outcome = .ok bitsSet ∧
      (nestedTree.resolve .standard ["cstdarg"]).outcome = .ok nestedSet ∧
      nestedSet.names = bitsSet.names ∧
      (∀ name ∈ bitsSet.names, ∃ location, bitsSet.get? name = some (bitsTree.path location) ∧
        nestedSet.get? name = some (nestedTree.path location)) ∧
      ∃ location, bitsTree.path location = ⟨"bits/deep/bits/c++config"⟩ ∧
        (Path.mk "bits/c++config").components <:+ location.map fun name => .normal name.text := by
  have hbits : bitsTree.files.node? bitsTree.root = some configuredNode := rfl
  have hnested : nestedTree.files.node? nestedTree.root = some configuredNode := rfl
  have hsame : bitsTree.SameBelow nestedTree := .of_node?_eq_some hbits hnested
  have hlinks : Kinds.IsLinkFree bitsTree.kind? := isLinkFree_kind? (by decide +kernel)
  have hshort : bitsTree.HasShortPaths := by decide +kernel
  have hmoved : nestedTree.HasShortPaths := by decide +kernel
  have hresolve : (bitsTree.resolve .standard ["cstdarg"]).outcome = .ok bitsSet := rfl
  have hresolveNested : (nestedTree.resolve .standard ["cstdarg"]).outcome = .ok nestedSet := rfl
  obtain ⟨houtcome, -, hsuffix⟩ :=
    resolve_isRelocatable hsame hlinks hshort hmoved .standard ["cstdarg"]
  rw [hresolve, hresolveNested] at houtcome
  obtain ⟨hnames, hplaces⟩ := houtcome
  refine ⟨hsame, hlinks, hshort, hmoved, hresolve, hresolveNested, hnames, hplaces, ?_⟩
  obtain ⟨location, hpath, hlocation⟩ := hsuffix "bits/c++config" ⟨"bits/deep/bits/c++config"⟩ rfl
  exact ⟨location, hpath.symm, hlocation⟩

/-! ### A root whose path is too long -/

def plainTree : SourceTree where
  files := paddedTree.files
  root := ⟨"."⟩

def plainSet : HeaderSet :=
  .insertMany .empty [("version", ⟨"./abc/version"⟩)]

theorem sameBelow_paddedTree : plainTree.SameBelow paddedTree := by
  have hplain : plainTree.files.node? plainTree.root = some paddedTree.files.root := rfl
  apply SameBelow.of_node?_eq_some hplain
  rw [FileSystem.node?, locate_paddedTree]
  rfl

/-- The header is found and read below one root, but the other one is as long as
a path may be. -/
theorem resolve_differs_padded :
    plainTree.SameBelow paddedTree ∧ Kinds.IsLinkFree plainTree.kind? ∧
      (plainTree.resolve .standard ["version"]).outcome = .ok plainSet ∧
      ∀ set, (paddedTree.resolve .standard ["version"]).outcome ≠ .ok set := by
  have hlinks : Kinds.IsLinkFree plainTree.kind? := isLinkFree_kind? (by decide +kernel)
  refine ⟨sameBelow_paddedTree, hlinks, rfl, ?_⟩
  intro set hresolve
  obtain ⟨found, hsearch, -⟩ :=
    (resolve_eq_ok_iff.mp hresolve).located "version" (.header List.mem_cons_self)
  have hlinksPadded := sameBelow_paddedTree.isLinkFree hlinks
  obtain ⟨location, _, -, -, hentry, hshort, -⟩ := (search_eq_ok_iff hlinksPadded).mp hsearch
  have hmem := mem_locations_iff.mpr hentry
  rw [utf8ByteSize_path_paddedTree location.isAbsolute_path] at hshort
  rw [locations_paddedTree, List.mem_cons, List.mem_singleton] at hmem
  rcases hmem with rfl | rfl
  · exact absurd hshort (by decide +kernel)
  · exact absurd hshort (by decide +kernel)

end SourceTree

end Freestanding
