import Freestanding.Resolution
import Mathlib.Data.List.Perm.Subperm

/-!
# The include graph

A name requires another one when the header found for it includes the other and
the environment does not provide it.  `SourceTree.HasDepth` counts the steps
from a list of names to the names that they require, directly or not; a
resolution of the list searches the names of one depth in one round.

Every name of a positive depth is included by a file of the source tree, and two
names of different depths differ.  So there are at most as many depths as names
that the files include, and `SourceTree.capacity` is no smaller.
-/

namespace Freestanding

namespace Utf8

def Decoder.count (decoder : Decoder) : Nat :=
  decoder.done.length + decoder.state.finish.length

theorem count_lead (byte : Nat) :
    (lead byte).1.length + (lead byte).2.finish.length = 1 := by
  unfold lead
  repeat' split
  all_goals rfl

theorem count_step (state : State) (byte : Nat) :
    (state.step byte).1.length + (state.step byte).2.finish.length ≤
      state.finish.length + 1 := by
  cases state with
  | start =>
      change (lead byte).1.length + (lead byte).2.finish.length ≤ 0 + 1
      exact Nat.le_of_eq (count_lead byte)
  | inside more low high value =>
      have hlead := count_lead byte
      simp only [State.step]
      split
      · cases more <;> simp [State.finish]
      · change (lead byte).1.length + 1 + (lead byte).2.finish.length ≤ 1 + 1
        omega

theorem count_foldl_read_le (bytes : List UInt8) (decoder : Decoder) :
    (bytes.foldl Decoder.read decoder).count ≤ decoder.count + bytes.length := by
  induction bytes generalizing decoder with
  | nil => simp
  | cons byte bytes ih =>
      have hstep := count_step decoder.state byte.toNat
      have hread :
          (decoder.read byte).count ≤ decoder.count + 1 := by
        simp only [Decoder.count, Decoder.read, List.length_append,
          List.length_reverse]
        omega
      have hrest := ih (decoder.read byte)
      simp only [List.foldl_cons, List.length_cons]
      omega

/-- Decoding gives no more characters than there are bytes. -/
theorem length_decode_le (bytes : List UInt8) :
    (decode bytes).toList.length ≤ bytes.length := by
  have hcount := count_foldl_read_le bytes ⟨.start, []⟩
  simpa [decode, Decoder.characters, Decoder.count, State.finish,
    Nat.add_comm] using hcount

end Utf8

theorem length_pieces_le {α : Type} [DecidableEq α] (separator : α) (xs : List α) :
    (pieces separator xs).length ≤ xs.length + 1 := by
  induction xs with
  | nil => simp
  | cons x xs ih =>
      by_cases hx : x = separator
      · subst hx
        simpa using ih
      · rw [pieces_cons_of_ne hx, List.length_modifyHead, List.length_cons]
        omega

theorem length_linesOfPieces_le (ps : List (List Char)) :
    (linesOfPieces ps).length ≤ ps.length := by
  fun_induction linesOfPieces ps with
  | case1 => simp
  | case2 => simp
  | case3 => simp
  | case4 piece next rest ih =>
      simp only [List.length_cons] at ih ⊢
      omega

theorem length_eraseDups_le {α : Type} [BEq α] (xs : List α) :
    xs.eraseDups.length ≤ xs.length := by
  match xs with
  | [] => simp
  | x :: xs =>
      have hkept := List.length_filter_le (fun y => !y == x) xs
      have hrest := length_eraseDups_le (xs.filter fun y => !y == x)
      rw [List.eraseDups_cons, List.length_cons, List.length_cons]
      omega
termination_by xs.length

theorem length_dependencies_le (contents : List UInt8) :
    (dependencies contents).length ≤ contents.length + 1 := by
  have hnames :=
    length_eraseDups_le
      ((lines (Utf8.decode contents).toList).filterMap includedName?)
  have hlines :=
    List.length_filterMap_le includedName? (lines (Utf8.decode contents).toList)
  have hpieces :=
    length_linesOfPieces_le (pieces '\n' (Utf8.decode contents).toList)
  have hcuts := length_pieces_le '\n' (Utf8.decode contents).toList
  have hdecode := Utf8.length_decode_le contents
  simp only [dependencies, includes, List.length_map]
  simp only [lines] at hnames hlines ⊢
  omega

theorem FileSystem.dependencies_eq_ok_iff {files : FileSystem} {path : Path}
    {names : List String} :
    files.dependencies path = .ok names ↔
      ∃ contents, files.read path = .ok contents ∧ Freestanding.dependencies contents = names := by
  rw [dependencies]
  cases files.read path with
  | error => simp [Except.map]
  | ok contents => simp [Except.map]

theorem FileSystem.dependencies_eq_ok {files : FileSystem} {path : Path} {names : List String}
    (hnames : files.dependencies path = .ok names) :
    ∃ contents, files.read path = .ok contents ∧ Freestanding.dependencies contents = names :=
  dependencies_eq_ok_iff.mp hnames

namespace SourceTree

/-! ### Requirements and depths -/

/-- The header found for a name includes another one, which the environment does
not provide. -/
def Requires (tree : SourceTree) (tables : Tables) (name required : String) : Prop :=
  ∃ found, tree.search tables name = .ok found ∧
    required ∈ found.includes ∧ required ∉ tables.provided

/-- The names of a list have depth 0.  A name has a greater depth when it has no
smaller one and a name of the depth before it requires it. -/
def HasDepth (tree : SourceTree) (tables : Tables) (headers : List String)
    (depth : Nat) (name : String) : Prop :=
  match depth with
  | 0 => name ∈ headers
  | depth + 1 =>
    (∀ smaller, smaller ≤ depth → ¬ tree.HasDepth tables headers smaller name) ∧
      ∃ parent, tree.HasDepth tables headers depth parent ∧
        tree.Requires tables parent name
termination_by depth

variable {tree : SourceTree} {tables : Tables} {headers : List String}

theorem hasDepth_zero {name : String} :
    tree.HasDepth tables headers 0 name ↔ name ∈ headers := by
  rw [HasDepth]

theorem hasDepth_succ {depth : Nat} {name : String} :
    tree.HasDepth tables headers (depth + 1) name ↔
      (∀ smaller, smaller ≤ depth → ¬ tree.HasDepth tables headers smaller name) ∧
        ∃ parent, tree.HasDepth tables headers depth parent ∧
          tree.Requires tables parent name := by
  rw [HasDepth]

theorem HasDepth.not_smaller {depth smaller : Nat} {name : String}
    (hdepth : tree.HasDepth tables headers depth name) (hsmaller : smaller < depth) :
    ¬ tree.HasDepth tables headers smaller name := by
  cases depth with
  | zero => omega
  | succ depth => exact (hasDepth_succ.mp hdepth).1 smaller (by omega)

theorem HasDepth.unique {depth other : Nat} {name : String}
    (hdepth : tree.HasDepth tables headers depth name)
    (hother : tree.HasDepth tables headers other name) : depth = other := by
  rcases Nat.lt_trichotomy depth other with hlt | heq | hgt
  · exact absurd hdepth (hother.not_smaller hlt)
  · exact heq
  · exact absurd hother (hdepth.not_smaller hgt)

/-- What a name requires has a depth that is at most one greater. -/
theorem HasDepth.of_requires {depth : Nat} {name required : String}
    (hdepth : tree.HasDepth tables headers depth name)
    (hrequires : tree.Requires tables name required) :
    ∃ next, next ≤ depth + 1 ∧ tree.HasDepth tables headers next required := by
  by_cases hsmaller :
      ∃ smaller, smaller ≤ depth ∧ tree.HasDepth tables headers smaller required
  · obtain ⟨smaller, hle, hfound⟩ := hsmaller
    exact ⟨smaller, by omega, hfound⟩
  · refine ⟨depth + 1, Nat.le_refl _, hasDepth_succ.mpr ⟨?_, name, hdepth, hrequires⟩⟩
    intro smaller hle hfound
    exact hsmaller ⟨smaller, hle, hfound⟩

/-! ### How many depths there are -/

def includedNames (tree : SourceTree) : List String :=
  tree.locations.flatMap fun location =>
    match tree.files.dependencies (tree.path location) with
    | .ok names => names
    | .error _ => []

theorem length_includedNames_le_capacity (tree : SourceTree) :
    tree.includedNames.length ≤ tree.capacity := by
  unfold includedNames capacity
  induction tree.locations with
  | nil => simp
  | cons location locations ih =>
      simp only [List.flatMap_cons, List.length_append, List.foldr_cons]
      cases hread : tree.files.read (tree.path location) with
      | error fault =>
          simp only [FileSystem.dependencies, hread, Except.map,
            List.length_nil] at ih ⊢
          omega
      | ok contents =>
          have hlength := length_dependencies_le contents
          simp only [FileSystem.dependencies, hread, Except.map] at ih ⊢
          omega

theorem search_eq_ok {name : String} {found : Located}
    (hsearch : tree.search tables name = .ok found) :
    tree.find? (tables.searchName name) = some found.location ∧
      tree.files.dependencies found.location = .ok found.includes := by
  unfold search at hsearch
  split at hsearch
  next => simp at hsearch
  next location hfind =>
    split at hsearch
    next includes hincludes =>
      simp only [Except.ok.injEq] at hsearch
      subst found
      exact ⟨hfind, hincludes⟩
    next => simp at hsearch

theorem Requires.mem_includedNames {name required : String}
    (hrequires : tree.Requires tables name required) :
    required ∈ tree.includedNames := by
  obtain ⟨found, hsearch, hmem, -⟩ := hrequires
  obtain ⟨hfind, hincludes⟩ := search_eq_ok hsearch
  obtain ⟨location, hlocation, hpath⟩ := Option.map_eq_some_iff.mp hfind
  refine List.mem_flatMap.mpr ⟨location, List.mem_of_find?_eq_some hlocation, ?_⟩
  rw [hpath, hincludes]
  exact hmem

/-- Along the way to a name of some depth there is a name of each positive depth
up to it, and all of them differ. -/
theorem HasDepth.exists_way {depth : Nat} {name : String}
    (hdepth : tree.HasDepth tables headers depth name) :
    ∃ way : List String, way.Nodup ∧ way.length = depth ∧
      (∀ passed ∈ way, ∃ smaller ≤ depth,
        tree.HasDepth tables headers smaller passed) ∧
      way ⊆ tree.includedNames := by
  induction depth generalizing name with
  | zero => exact ⟨[], by simp⟩
  | succ depth ih =>
      obtain ⟨hfresh, parent, hparent, hrequires⟩ := hasDepth_succ.mp hdepth
      obtain ⟨way, hnodup, hlength, hdepths, hincluded⟩ := ih hparent
      have hnotMem : name ∉ way := by
        intro hmem
        obtain ⟨smaller, hle, hsmaller⟩ := hdepths name hmem
        exact hfresh smaller hle hsmaller
      refine ⟨name :: way, List.nodup_cons.mpr ⟨hnotMem, hnodup⟩, by simp [hlength], ?_, ?_⟩
      · intro passed hpassed
        rcases List.mem_cons.mp hpassed with rfl | hpassed
        · exact ⟨depth + 1, Nat.le_refl _, hdepth⟩
        · obtain ⟨smaller, hle, hsmaller⟩ := hdepths passed hpassed
          exact ⟨smaller, by omega, hsmaller⟩
      · exact List.cons_subset.mpr ⟨hrequires.mem_includedNames, hincluded⟩

/-- No name lies deeper than there are names that files of the tree include. -/
theorem HasDepth.le_length_includedNames {depth : Nat} {name : String}
    (hdepth : tree.HasDepth tables headers depth name) :
    depth ≤ tree.includedNames.length := by
  obtain ⟨way, hnodup, hlength, -, hincluded⟩ := hdepth.exists_way
  rw [← hlength]
  exact (hnodup.subperm hincluded).length_le

end SourceTree

end Freestanding
