import Freestanding.Proofs.Effects
import Freestanding.Proofs.NameOrder
import Freestanding.Search
import Mathlib.Data.String.Basic

/-!
# The least match of a search

A walk lists the entries below a node in the lexicographic order of their
locations, with names compared by their bytes, whatever the order in which the
directories hold them.  The first match is therefore the least one.

A walk cannot look into a directory whose path is too long, so what is in such a
directory is no match, although it ends with the components searched for.
-/

namespace Freestanding

theorem lookup_eq_some_iff_of_nodup {α β : Type} [DecidableEq α] {entries : List (α × β)}
    (hnodup : (entries.map Prod.fst).Nodup) {key : α} {value : β} :
    entries.lookup key = some value ↔ (key, value) ∈ entries := by
  constructor
  · exact mem_of_lookup
  · intro hmem
    induction entries with
    | nil => simp at hmem
    | cons entry rest ih =>
        obtain ⟨hfresh, hrest⟩ := List.nodup_cons.mp hnodup
        rcases List.mem_cons.mp hmem with rfl | hmem
        · simp
        · have hne : key ≠ entry.1 := by
            rintro rfl
            exact hfresh (List.mem_map.mpr ⟨_, hmem, rfl⟩)
          rw [lookup_cons_of_ne hne]
          exact ih hrest hmem

/-! ### Walking order -/

/-- The names on the way to a location, as bytes. -/
def Location.bytes (location : Location) : List (List UInt8) :=
  location.map fun name => Utf8.encode name.text

theorem Location.bytes_cons_lt {name other : Name} (hless : name.text < other.text)
    (location rest : Location) :
    Location.bytes (name :: location) < Location.bytes (other :: rest) :=
  List.cons_lt_cons_iff.mpr (.inl (Utf8.encode_lt_encode hless))

theorem pairwise_insertByName {α : Type} {entry : Name × α} {entries : List (Name × α)}
    (hsorted : entries.Pairwise fun a b => a.1.text < b.1.text)
    (hfresh : ∀ other ∈ entries, other.1 ≠ entry.1) :
    (insertByName entry entries).Pairwise fun a b => a.1.text < b.1.text := by
  induction entries with
  | nil => simp [insertByName]
  | cons head rest ih =>
      obtain ⟨hhead, hrest⟩ := List.pairwise_cons.mp hsorted
      rw [insertByName]
      split
      next hless =>
          have hbehind := ih hrest fun other hother => hfresh other (List.mem_cons_of_mem _ hother)
          refine .cons ?_ hbehind
          intro other hother
          rw [(perm_insertByName entry rest).mem_iff, List.mem_cons] at hother
          rcases hother with rfl | hother
          · exact hless
          · exact hhead other hother
      next hnot =>
          have hne : entry.1.text ≠ head.1.text := by
            intro heq
            refine hfresh head List.mem_cons_self ?_
            rw [Name.mk.injEq]
            exact heq.symm
          have hless : entry.1.text < head.1.text :=
            Std.lt_of_le_of_ne (String.not_lt.mp hnot) hne
          refine .cons ?_ hsorted
          intro other hother
          rcases List.mem_cons.mp hother with rfl | hother
          · exact hless
          · exact String.lt_trans hless (hhead other hother)

theorem pairwise_sortByName {α : Type} {entries : List (Name × α)}
    (hnodup : (entries.map Prod.fst).Nodup) :
    (sortByName entries).Pairwise fun a b => a.1.text < b.1.text := by
  induction entries with
  | nil => exact .nil
  | cons entry rest ih =>
      obtain ⟨hfresh, hrest⟩ := List.nodup_cons.mp hnodup
      refine pairwise_insertByName (ih hrest) ?_
      intro other hother heq
      refine hfresh (heq ▸ List.mem_map_of_mem ?_)
      exact (perm_sortByName rest).mem_iff.mp hother

namespace Node

theorem mem_descendants_directory {entries : List (Name × Node)} {location : Location}
    {found : Node} :
    (location, found) ∈ (Node.directory entries).descendants ↔
      ∃ name node rest, (name, node) ∈ entries ∧ location = name :: rest ∧
        (rest, found) ∈ ([], node) :: node.descendants := by
  simp only [descendants, descendantsEach_eq_map, List.mem_flatMap,
    (perm_sortByName _).mem_iff, List.mem_map]
  constructor
  · rintro ⟨_, ⟨⟨name, node⟩, hentry, rfl⟩, ⟨rest, _⟩, hrest, heq⟩
    obtain ⟨rfl, rfl⟩ := Prod.mk.inj heq
    exact ⟨name, node, rest, hentry, rfl, hrest⟩
  · rintro ⟨name, node, rest, hentry, rfl, hrest⟩
    exact ⟨_, ⟨(name, node), hentry, rfl⟩, (rest, found), hrest, rfl⟩

/-- A walk lists what has a location below a node. -/
theorem Distinct.mem_descendants_iff {node : Node} (hdistinct : node.Distinct)
    {location : Location} {found : Node} :
    (location, found) ∈ node.descendants ↔ location ≠ [] ∧ node.get? location = some found := by
  induction hdistinct generalizing location with
  | file => cases location <;> simp [descendants, get?, child?]
  | link => cases location <;> simp [descendants, get?, child?]
  | @directory entries hnames _ ih =>
      rw [mem_descendants_directory]
      constructor
      · rintro ⟨name, node, rest, hentry, rfl, hrest⟩
        refine ⟨List.cons_ne_nil _ _, ?_⟩
        rw [get?, child?, (lookup_eq_some_iff_of_nodup hnames).mpr hentry, Option.bind_some]
        rcases List.mem_cons.mp hrest with heq | hrest
        · obtain ⟨rfl, rfl⟩ := Prod.mk.inj heq
          rfl
        · exact ((ih _ hentry).mp hrest).2
      · rintro ⟨hnonempty, hget⟩
        obtain ⟨name, rest, rfl⟩ := List.exists_cons_of_ne_nil hnonempty
        obtain ⟨node, hchild, hget⟩ := Option.bind_eq_some_iff.mp hget
        have hentry := (lookup_eq_some_iff_of_nodup hnames).mp hchild
        refine ⟨name, node, rest, hentry, rfl, ?_⟩
        cases rest with
        | nil =>
            obtain rfl : node = found := by simpa [get?] using hget
            exact List.mem_cons_self
        | cons next more =>
            exact List.mem_cons_of_mem _ ((ih _ hentry).mpr ⟨List.cons_ne_nil _ _, hget⟩)

/-- A walk comes to what is below a node in the order of the locations. -/
theorem Distinct.pairwise_descendants {node : Node} (hdistinct : node.Distinct) :
    node.descendants.Pairwise fun a b => Location.bytes a.1 < Location.bytes b.1 := by
  induction hdistinct with
  | file => exact .nil
  | link => exact .nil
  | @directory entries hnames hnodes ih =>
      rw [descendants, List.pairwise_flatMap]
      constructor
      · intro group hgroup
        rw [(perm_sortByName _).mem_iff, descendantsEach_eq_map] at hgroup
        obtain ⟨entry, hentry, rfl⟩ := List.mem_map.mp hgroup
        rw [List.pairwise_map, List.pairwise_cons]
        constructor
        · rintro ⟨location, found⟩ hfound
          obtain ⟨hnonempty, -⟩ := (hnodes entry hentry).mem_descendants_iff.mp hfound
          obtain ⟨name, rest, rfl⟩ := List.exists_cons_of_ne_nil hnonempty
          exact List.cons_lt_cons_iff.mpr (.inr ⟨rfl, List.nil_lt_cons _ _⟩)
        · exact (ih entry hentry).imp fun hless => List.cons_lt_cons_iff.mpr (.inr ⟨rfl, hless⟩)
      · have hgroups : ((descendantsEach entries).map Prod.fst).Nodup := by
          simpa [descendantsEach_eq_map, Function.comp_def] using hnames
        refine (pairwise_sortByName hgroups).imp fun hless => ?_
        intro a ha b hb
        obtain ⟨_, -, rfl⟩ := List.mem_map.mp ha
        obtain ⟨_, -, rfl⟩ := List.mem_map.mp hb
        exact Location.bytes_cons_lt hless _ _

theorem Distinct.of_get? {node found : Node} (hdistinct : node.Distinct) {location : Location}
    (hget : node.get? location = some found) : found.Distinct := by
  induction location generalizing node with
  | nil =>
      obtain rfl : node = found := by simpa [get?] using hget
      exact hdistinct
  | cons name rest ih =>
      obtain ⟨child, hchild, hrest⟩ := Option.bind_eq_some_iff.mp hget
      cases node with
      | file => cases hchild
      | link => cases hchild
      | directory entries => exact ih (hdistinct.of_lookup hchild) hrest

theorem get?_append (node : Node) (location rest : Location) :
    node.get? (location ++ rest) = (node.get? location).bind (·.get? rest) := by
  induction location generalizing node with
  | nil => rfl
  | cons name location ih =>
      rw [List.cons_append, get?, get?]
      cases node.child? name with
      | none => rfl
      | some child => exact ih child

end Node

theorem Path.utf8ByteSize_le_of_check {path : Path} (hcheck : path.check = .ok ()) :
    path.text.utf8ByteSize ≤ pathLimit := by
  unfold check at hcheck
  split_ifs at hcheck with _ hlong
  exact Nat.not_lt.mp hlong

namespace FileSystem

/-- Where a path leads is told by the kinds of the nodes and the current
directory. -/
theorem locate_congr {files other : FileSystem} (hcurrent : other.current = files.current)
    (hkinds : other.kind? = files.kind?) (path : Path) :
    other.locate path = files.locate path := by
  have hstart : other.start path = files.start path := by
    unfold start
    rw [hcurrent]
  unfold locate
  rw [resolve_eq_follow, resolve_eq_follow, hstart, hkinds]

theorem kind?_append {files : FileSystem} {base : Location} {node : Node}
    (hnode : files.root.get? base = some node) (location : Location) :
    files.kind? (base ++ location) = (node.get? location).map Node.kind := by
  rw [kind?, Node.get?_append, hnode, Option.bind_some]

theorem kind?_of_isPrefix {files : FileSystem} {above location : Location}
    (hkind : files.kind? location ≠ none) (habove : above <+: location) (hne : above ≠ location) :
    files.kind? above = some .directory := by
  induction location using List.reverseRecOn with
  | nil => exact absurd (List.prefix_nil.mp habove) hne
  | append_singleton parent name ih =>
      have hparent := kind?_parent hkind
      rcases List.prefix_concat_iff.mp habove with rfl | hupper
      · exact absurd rfl hne
      · by_cases hsame : above = parent
        · rw [hsame, hparent]
        · exact ih (by simp [hparent]) hupper hsame

end FileSystem

/-! ### Matches -/

namespace SourceTree

variable {tree : SourceTree} {header : String} {location : Location}

/-- Whether something lies at a location below the root, which may be a link,
and only directories lie on the way. -/
structure IsEntry (tree : SourceTree) (location : Location) : Prop where
  ne_nil : location ≠ []
  reached : ∃ base, tree.files.locate tree.root = .ok base ∧
    tree.files.kind? (base ++ location) ≠ none ∧
      ∀ above, above <+: location → above ≠ location →
        tree.files.kind? (base ++ above) = some .directory

/-- Whether an entry ends with the components of a header's name and its path
leads to no directory. -/
structure Matches (tree : SourceTree) (header : String) (location : Location) : Prop where
  entry : tree.IsEntry location
  suffix : (Path.mk header).components <:+ location.map fun name => .normal name.text
  notDirectory : ∀ place, tree.files.locate (tree.path location) = .ok place →
    tree.files.kind? place ≠ some .directory

/-- Whether a walk can look into the directory of a location. -/
def IsListed (tree : SourceTree) (location : Location) : Prop :=
  location.dropLast ≠ [] → (tree.path location.dropLast).text.utf8ByteSize ≤ pathLimit

theorem isEntry_iff :
    tree.IsEntry location ↔ location ≠ [] ∧ ∃ base, tree.files.locate tree.root = .ok base ∧
      tree.files.kind? (base ++ location) ≠ none := by
  constructor
  · rintro ⟨hnonempty, base, hbase, hkind, -⟩
    exact ⟨hnonempty, base, hbase, hkind⟩
  · rintro ⟨hnonempty, base, hbase, hkind⟩
    refine ⟨hnonempty, base, hbase, hkind, ?_⟩
    intro above habove hne
    refine FileSystem.kind?_of_isPrefix hkind ?_ ?_
    · exact (List.prefix_append_right_inj base).mpr habove
    · exact fun heq => hne (List.append_cancel_left heq)

theorem descendants_eq {base : Location} {node : Node}
    (hbase : tree.files.locate tree.root = .ok base)
    (hnode : tree.files.root.get? base = some node) :
    tree.files.descendants tree.root = node.descendants := by
  simp [FileSystem.descendants, FileSystem.node?, hbase, hnode]

theorem mem_locations_iff : location ∈ tree.locations ↔ tree.IsEntry location := by
  rw [isEntry_iff, locations]
  cases hbase : tree.files.locate tree.root with
  | error => simp [FileSystem.descendants, FileSystem.node?, hbase]
  | ok base =>
      cases hnode : tree.files.root.get? base with
      | none =>
          simp [FileSystem.descendants, FileSystem.node?, hbase, hnode, FileSystem.kind?,
            Node.get?_append]
      | some node =>
          have hdistinct := tree.files.distinct.of_get? hnode
          rw [descendants_eq hbase hnode]
          simp [FileSystem.kind?_append hnode, hdistinct.mem_descendants_iff,
            Option.ne_none_iff_exists']

theorem pairwise_locations (tree : SourceTree) :
    tree.locations.Pairwise fun a b => a.bytes < b.bytes := by
  rw [locations, List.pairwise_map, FileSystem.descendants, FileSystem.node?]
  cases tree.files.locate tree.root with
  | error => exact .nil
  | ok base =>
      cases hnode : tree.files.root.get? base with
      | none => simp [hnode]
      | some node =>
          simp only [hnode]
          exact (tree.files.distinct.of_get? hnode).pairwise_descendants

theorem isListed_iff : tree.reaches location = true ↔ tree.IsListed location := by
  simp [reaches, IsListed, Decidable.imp_iff_not_or]

theorem mem_locations_and_isCandidate_iff :
    location ∈ tree.locations ∧ tree.isCandidate header location = true ↔
      tree.Matches header location ∧ tree.IsListed location := by
  have hdirectory : tree.files.isDirectory (tree.path location) = false ↔
      ∀ place, tree.files.locate (tree.path location) = .ok place →
        tree.files.kind? place ≠ some .directory := by
    rw [← Bool.not_eq_true, FileSystem.isDirectory_iff]
    simp
  simp only [mem_locations_iff, isCandidate, Bool.and_eq_true, Bool.not_eq_true', hdirectory,
    isListed_iff, Location.endsWith, List.isSuffixOf_iff_suffix]
  constructor
  · rintro ⟨hentry, ⟨hsuffix, hnot⟩, hlisted⟩
    exact ⟨⟨hentry, hsuffix, hnot⟩, hlisted⟩
  · rintro ⟨⟨hentry, hsuffix, hnot⟩, hlisted⟩
    exact ⟨hentry, ⟨hsuffix, hnot⟩, hlisted⟩

/-- The first element of an increasing list with a property is the least one. -/
theorem find?_eq_some_iff_of_pairwise {α : Type} {less : α → α → Prop} {p : α → Bool}
    {xs : List α} (hsorted : xs.Pairwise less) (hasymm : ∀ x y, less x y → ¬ less y x) {x : α} :
    xs.find? p = some x ↔
      (x ∈ xs ∧ p x = true) ∧ ∀ other, other ∈ xs ∧ p other = true → other = x ∨ less x other := by
  have hleast {first : α} (hfirst : xs.find? p = some first) (other : α)
      (hother : other ∈ xs ∧ p other = true) : other = first ∨ less first other := by
    obtain ⟨-, front, back, rfl, hfront⟩ := List.find?_eq_some_iff_append.mp hfirst
    rcases List.mem_append.mp hother.1 with hmem | hmem
    · have hnot := hfront other hmem
      simp [hother.2] at hnot
    · rcases List.mem_cons.mp hmem with heq | hmem
      · exact .inl heq
      · exact .inr ((List.pairwise_cons.mp (List.pairwise_append.mp hsorted).2.1).1 other hmem)
  constructor
  · intro hfound
    exact ⟨⟨List.mem_of_find?_eq_some hfound, List.find?_some hfound⟩, hleast hfound⟩
  · rintro ⟨hx, hall⟩
    obtain ⟨first, hfirst⟩ := Option.isSome_iff_exists.mp (List.find?_isSome.mpr ⟨x, hx⟩)
    rcases hleast hfirst x hx with rfl | hless
    · exact hfirst
    · rcases hall first ⟨List.mem_of_find?_eq_some hfirst, List.find?_some hfirst⟩ with rfl | hmore
      · exact hfirst
      · exact absurd hmore (hasymm _ _ hless)

theorem find?_eq_some_iff {path : Path} :
    tree.find? header = some path ↔ ∃ location, path = tree.path location ∧
      (tree.Matches header location ∧ tree.IsListed location) ∧
      ∀ other, tree.Matches header other ∧ tree.IsListed other →
        other = location ∨ location.bytes < other.bytes := by
  have hasymm : ∀ x y : Location, x.bytes < y.bytes → ¬ y.bytes < x.bytes :=
    fun x y => List.lt_asymm
  simp only [find?, Option.map_eq_some_iff,
    find?_eq_some_iff_of_pairwise tree.pairwise_locations hasymm,
    mem_locations_and_isCandidate_iff]
  constructor
  · rintro ⟨location, hleast, rfl⟩
    exact ⟨location, rfl, hleast⟩
  · rintro ⟨location, rfl, hleast⟩
    exact ⟨location, hleast, rfl⟩

theorem find?_eq_none_iff :
    tree.find? header = none ↔
      ∀ location, ¬ (tree.Matches header location ∧ tree.IsListed location) := by
  simp only [← mem_locations_and_isCandidate_iff, find?, Option.map_eq_none_iff,
    List.find?_eq_none, not_and]

/-- Whether an entry matches is told by the kinds of the nodes. -/
theorem Matches.of_kind?_eq (hmatch : tree.Matches header location) {files : FileSystem}
    (hcurrent : files.current = tree.files.current) (hkinds : files.kind? = tree.files.kind?) :
    (SourceTree.mk files tree.root).Matches header location := by
  have hlocate := FileSystem.locate_congr hcurrent hkinds
  refine ⟨⟨hmatch.entry.ne_nil, ?_⟩, hmatch.suffix, ?_⟩
  · dsimp only
    rw [hlocate, hkinds]
    exact hmatch.entry.reached
  · dsimp only
    rw [hlocate, hkinds]
    exact hmatch.notDirectory

/-- A search finds nothing exactly if nothing matches in a directory that the
walk can look into, and otherwise the least such match in the lexicographic
order of the names' bytes.  The order in which directories hold their entries
makes no difference. -/
theorem find?_isLeast_match (tree : SourceTree) (header : String) :
    (tree.find? header = none ↔
        ∀ location, ¬ (tree.Matches header location ∧ tree.IsListed location)) ∧
      (∀ path, tree.find? header = some path ↔ ∃ location, path = tree.path location ∧
        (tree.Matches header location ∧ tree.IsListed location) ∧
        ∀ other, tree.Matches header other ∧ tree.IsListed other →
          other = location ∨ location.bytes < other.bytes) ∧
      ∀ files : FileSystem, files.current = tree.files.current →
        files.kind? = tree.files.kind? →
          (SourceTree.mk files tree.root).find? header = tree.find? header := by
  refine ⟨find?_eq_none_iff, fun path => find?_eq_some_iff, ?_⟩
  intro files hcurrent hkinds
  have hmatches (location : Location) :
      (SourceTree.mk files tree.root).Matches header location ↔ tree.Matches header location :=
    ⟨fun hmatch => hmatch.of_kind?_eq hcurrent.symm hkinds.symm,
      fun hmatch => hmatch.of_kind?_eq hcurrent hkinds⟩
  apply Option.ext
  intro path
  rw [find?_eq_some_iff, find?_eq_some_iff]
  simp only [hmatches]
  rfl

/-! ### A match that a walk does not come to -/

/-- A path of the current directory, as long as its slashes make it. -/
def paddedRoot (slashes : Nat) : Path :=
  ⟨String.ofList ('.' :: List.replicate slashes '/')⟩

theorem segments_paddedRoot (slashes : Nat) :
    (paddedRoot slashes).segments = .here :: List.replicate slashes .blank := by
  have hblank (n : Nat) : pieces '/' (List.replicate n '/') = List.replicate (n + 1) [] := by
    induction n with
    | zero => rfl
    | succ n ih =>
        rw [List.replicate_succ, pieces_cons_self, ih]
        rfl
  have hne : '.' ≠ '/' := by decide
  rw [Path.segments, Path.pieces, paddedRoot, String.toList_ofList, pieces_cons_of_ne hne, hblank,
    List.replicate_succ]
  simp [Segment.ofPiece]

theorem utf8ByteSize_paddedRoot (slashes : Nat) :
    (paddedRoot slashes).text.utf8ByteSize = slashes + 1 := by
  have hslashes (n : Nat) : String.utf8Len (List.replicate n '/') = n := by
    induction n with
    | zero => rfl
    | succ n ih =>
        rw [List.replicate_succ, String.utf8Len_cons, ih]
        rfl
  rw [paddedRoot, String.utf8ByteSize_ofList, String.utf8Len_cons, hslashes]
  rfl

theorem utf8ByteSize_join_paddedRoot {below : Path} (hbelow : below.isAbsolute = false)
    (slashes : Nat) :
    ((paddedRoot (slashes + 1)).join below).text.utf8ByteSize =
      slashes + 2 + below.text.utf8ByteSize := by
  have hlast : (paddedRoot (slashes + 1)).text.toList.getLast?.all (· = '/') = true := by
    simp [paddedRoot, List.replicate_succ', List.getLast?_cons, List.getLast?_append]
  rw [Path.join, if_neg (by simp [hbelow]), if_pos hlast, String.utf8ByteSize_append,
    utf8ByteSize_paddedRoot]

theorem locate_paddedRoot {files : FileSystem}
    (hcurrent : files.kind? files.current = some .directory) {slashes : Nat}
    (hslashes : slashes < pathLimit) :
    files.locate (paddedRoot slashes) = .ok files.current := by
  have habsolute : (paddedRoot slashes).isAbsolute = false := by
    simp [Path.isAbsolute, paddedRoot]
  have hstart : files.start (paddedRoot slashes) = files.current := by
    simp [FileSystem.start, habsolute]
  have hblanks (onLink : Location → Path → List Segment → Except Fault Place) (n : Nat) :
      Kinds.walk files.kind? .reach onLink files.current (List.replicate n .blank) =
        .ok (.occupied files.current) := by
    induction n with
    | zero => rfl
    | succ n ih => simpa [List.replicate_succ, Kinds.walk, Kinds.move, hcurrent] using ih
  have hfollow : Kinds.follow files.kind? .reach linkLimit files.current
      (.here :: List.replicate slashes .blank) = .ok (.occupied files.current) := by
    simpa [linkLimit, Kinds.follow, Kinds.walk, Kinds.move, hcurrent] using hblanks _ slashes
  have hcheck : (paddedRoot slashes).check = .ok () := by
    have hnul : '\x00' ∉ (paddedRoot slashes).text.toList := by simp [paddedRoot]
    have hnonempty : (paddedRoot slashes).text ≠ "" := by
      intro hempty
      have hsize := utf8ByteSize_paddedRoot slashes
      simp [hempty] at hsize
    have hshort : ¬ pathLimit < (paddedRoot slashes).text.utf8ByteSize := by
      rw [utf8ByteSize_paddedRoot]
      omega
    rw [Path.check, if_neg hnul, if_neg hshort, if_neg hnonempty]
  rw [FileSystem.locate_eq_ok_iff, FileSystem.resolve_eq_ok_iff, hstart, segments_paddedRoot]
  exact ⟨hcheck, hfollow, by simp [hcurrent]⟩

def paddedTree : SourceTree where
  files := {
    root := .directory [(⟨"abc", by decide⟩, .directory [(⟨"version", by decide⟩, .file [])])]
    current := []
    distinct := by
      refine .directory (by decide) (List.forall_mem_singleton.mpr ?_)
      exact .directory (by decide) (List.forall_mem_singleton.mpr .file)
  }
  root := paddedRoot (pathLimit - 1)

theorem locate_paddedTree : paddedTree.files.locate paddedTree.root = .ok [] :=
  locate_paddedRoot rfl (by decide)

theorem locations_paddedTree :
    paddedTree.locations =
      [[⟨"abc", by decide⟩], [⟨"abc", by decide⟩, ⟨"version", by decide⟩]] := by
  rw [locations, descendants_eq locate_paddedTree rfl]
  rfl

theorem utf8ByteSize_path_paddedTree {location : Location}
    (hrelative : location.path.isAbsolute = false) :
    (paddedTree.path location).text.utf8ByteSize =
      pathLimit + location.path.text.utf8ByteSize :=
  utf8ByteSize_join_paddedRoot hrelative _

theorem find?_paddedTree : paddedTree.find? "version" = none := by
  rw [find?_eq_none_iff]
  rintro location ⟨hmatch, hlisted⟩
  have hmem := mem_locations_iff.mpr hmatch.entry
  rw [locations_paddedTree, List.mem_cons, List.mem_singleton] at hmem
  rcases hmem with rfl | rfl
  · exact absurd hmatch.suffix (by decide +kernel)
  · have hshort := hlisted (List.cons_ne_nil _ _)
    rw [List.dropLast_cons_cons, List.dropLast_singleton,
      utf8ByteSize_path_paddedTree (by decide +kernel)] at hshort
    exact absurd hshort (by decide +kernel)

/-- An entry matches, but the path of its directory is too long for a walk. -/
theorem find?_misses_match :
    paddedTree.Matches "version" [⟨"abc", by decide⟩, ⟨"version", by decide⟩] ∧
      paddedTree.find? "version" = none := by
  constructor
  · refine ⟨?_, by decide +kernel, ?_⟩
    · rw [← mem_locations_iff, locations_paddedTree]
      exact List.mem_cons_of_mem _ List.mem_cons_self
    · intro place hlocate
      have hresolve := FileSystem.locate_eq_ok_iff.mp hlocate
      have hshort := Path.utf8ByteSize_le_of_check (FileSystem.resolve_eq_ok_iff.mp hresolve).1
      rw [utf8ByteSize_path_paddedTree (by decide +kernel)] at hshort
      exact absurd hshort (by decide +kernel)
  · exact find?_paddedTree

end SourceTree

end Freestanding
