import Freestanding.Proofs.DistinctSearches
import Freestanding.Proofs.LeastMatch
import Mathlib.Data.Set.Card

/-!
# The number of rounds

A resolution is written with a limit on its rounds, so that it plainly ends.
`Runs` has the same rounds without any limit, and a resolution is the one run
that there is.  `Resolution.stage` tells from the rounds of a run what it holds
before each of them: the frontier whose depth is the number of the round.

The pending names of a round can be more than those of the round before, since
repeats are kept.  But all of them have the depth that is the number of the
round, and a name of some depth is behind that many different names, all included
by files of the source tree.  So there is at most one round more than there are
such names.
-/

namespace Freestanding

/-- What a resolution holds between two rounds. -/
structure Stage where
  set : HeaderSet
  pending : List String

namespace Stage

def initial (headers : List String) : Stage :=
  ⟨.empty, headers⟩

/-- The stage that a round without failure leads to. -/
def after (tables : Tables) (stage : Stage) (round : Round) : Stage :=
  let set := stage.set.insertMany round.located
  ⟨set, tables.pending set round.discovered⟩

end Stage

/-- The stage before the round of a number, told from the rounds before it. -/
def Resolution.stage (resolution : Resolution) (tables : Tables) (start : Stage)
    (number : Nat) : Stage :=
  (resolution.rounds.take number).foldl (Stage.after tables) start

theorem Resolution.stage_succ (later : Resolution) (tables : Tables) (start : Stage)
    (round : Round) (number : Nat) :
    { later with rounds := round :: later.rounds }.stage tables start (number + 1) =
      later.stage tables (start.after tables round) number := rfl

theorem FileSystem.isDirectory_eq_false_of_read {files : FileSystem} {path : Path}
    {contents : List UInt8} (hread : files.read path = .ok contents) :
    files.isDirectory path = false := by
  obtain ⟨location, hlocate, hcontents⟩ := read_eq_ok_iff.mp hread
  have hkind := kind?_of_contents? hcontents
  rw [← Bool.not_eq_true, isDirectory_iff]
  rintro ⟨place, hplace, hdirectory⟩
  rw [hlocate, Except.ok.injEq] at hplace
  rw [← hplace, hkind] at hdirectory
  simp at hdirectory

namespace SourceTree

variable {tree : SourceTree} {tables : Tables} {headers pending : List String} {set : HeaderSet}
  {resolution other : Resolution}

/-! ### Rounds without a limit -/

/-- Rounds go on until nothing is pending or a search fails. -/
inductive Runs (tree : SourceTree) (tables : Tables) :
    HeaderSet → List String → Resolution → Prop
  | complete {set : HeaderSet} : Runs tree tables set [] ⟨[], .ok set⟩
  | failed {set : HeaderSet} {header : String} {rest : List String} {name : String}
      {error : SearchError}
      (hfailure : (tree.round tables (header :: rest)).failure = some (name, error)) :
      Runs tree tables set (header :: rest)
        ⟨[tree.round tables (header :: rest)], .error error⟩
  | next {set : HeaderSet} {header : String} {rest : List String} {later : Resolution}
      (hfailure : (tree.round tables (header :: rest)).failure = none)
      (hlater : Runs tree tables
        (set.insertMany (tree.round tables (header :: rest)).located)
        (tables.pending (set.insertMany (tree.round tables (header :: rest)).located)
          (tree.round tables (header :: rest)).discovered) later) :
      Runs tree tables set (header :: rest)
        { later with rounds := tree.round tables (header :: rest) :: later.rounds }

theorem Runs.unique (hruns : tree.Runs tables set pending resolution)
    (hother : tree.Runs tables set pending other) : resolution = other := by
  induction hruns generalizing other with
  | complete =>
      cases hother
      rfl
  | failed hfailure =>
      cases hother with
      | failed hagain =>
          rw [hfailure, Option.some.injEq, Prod.mk.injEq] at hagain
          rw [hagain.2]
      | next hagain =>
          rw [hfailure] at hagain
          contradiction
  | next hfailure _ ih =>
      cases hother with
      | failed hagain =>
          rw [hfailure] at hagain
          contradiction
      | next _ hlater => rw [ih hlater]

/-- From a frontier, a limit that is large enough is no limit. -/
theorem Frontier.runs {limit depth : Nat}
    (hfrontier : Frontier tree tables headers depth set pending)
    (hlimit : tree.capacity < limit + depth) :
    tree.Runs tables set pending (tree.resolveFrom tables limit set pending) := by
  induction limit generalizing depth set pending with
  | zero =>
      obtain rfl := hfrontier.pending_eq_nil (by omega)
      exact .complete
  | succ limit ih =>
      cases pending with
      | nil => exact .complete
      | cons header rest =>
          unfold resolveFrom
          cases hfailure : (tree.round tables (header :: rest)).failure with
          | none =>
              simp only [hfailure]
              exact .next hfailure (ih (hfrontier.step hfailure) (by omega))
          | some failure =>
              simp only [hfailure]
              exact .failed hfailure

theorem resolve_runs (tree : SourceTree) (tables : Tables) (headers : List String) :
    tree.Runs tables .empty headers (tree.resolve tables headers) :=
  (Frontier.initial tree tables headers).runs (by omega)

/-! ### What is searched in a round -/

theorem searched_ne_nil (header : String) (rest : List String) :
    (tree.round tables (header :: rest)).searched ≠ [] := by
  unfold round
  cases tree.search tables header <;> simp [Round.searched]

theorem Frontier.hasDepth_of_mem_searched {depth : Nat}
    (hfrontier : Frontier tree tables headers depth set pending) {name : String}
    (hname : name ∈ (tree.round tables pending).searched) :
    tree.HasDepth tables headers depth name :=
  (hfrontier.pending_iff name).mp ((tree.searched_isPrefix tables pending).mem hname)

/-- Before each round of a run, names of one depth are pending and those of smaller depth
are located.  The depth grows by one from round to round. -/
theorem Runs.frontier_stage (hruns : tree.Runs tables set pending resolution) {depth : Nat}
    (hfrontier : Frontier tree tables headers depth set pending) {number : Nat} {round : Round}
    (hround : resolution.rounds[number]? = some round) :
    let stage := resolution.stage tables ⟨set, pending⟩ number
    Frontier tree tables headers (depth + number) stage.set stage.pending ∧
      stage.pending ≠ [] ∧ tree.round tables stage.pending = round := by
  induction hruns generalizing depth number with
  | complete => simp at hround
  | failed hfailure =>
      cases number with
      | zero => exact ⟨hfrontier, List.cons_ne_nil _ _, Option.some.inj hround⟩
      | succ number => simp at hround
  | next hfailure _ ih =>
      cases number with
      | zero => exact ⟨hfrontier, List.cons_ne_nil _ _, Option.some.inj hround⟩
      | succ number =>
          -- The rest of the run starts at the frontier that this round leads to.
          have hlater := ih (hfrontier.step hfailure) hround
          rw [Resolution.stage_succ, show depth + (number + 1) = depth + 1 + number by omega]
          exact hlater

/-- A round searches names of one depth, which is greater by one than that of the
round before. -/
theorem Runs.hasDepth_of_searched (hruns : tree.Runs tables set pending resolution) {depth : Nat}
    (hfrontier : Frontier tree tables headers depth set pending) {number : Nat} {round : Round}
    (hround : resolution.rounds[number]? = some round) :
    round.searched ≠ [] ∧
      ∀ name ∈ round.searched, tree.HasDepth tables headers (depth + number) name := by
  obtain ⟨hstage, hpending, hsearched⟩ := hruns.frontier_stage hfrontier hround
  rw [← hsearched]
  constructor
  · obtain ⟨header, rest, hnames⟩ := List.exists_cons_of_ne_nil hpending
    rw [hnames]
    exact searched_ne_nil header rest
  · intro name hname
    exact hstage.hasDepth_of_mem_searched hname

/-! ### Counting -/

/-- The names that are included by what lies below the root and is no
directory. -/
def dependencyNames (tree : SourceTree) : Set String :=
  {name | ∃ location, tree.IsEntry location ∧
    tree.files.isDirectory (tree.path location) = false ∧
      ∃ names, tree.files.dependencies (tree.path location) = .ok names ∧ name ∈ names}

theorem mem_includedNames_iff {name : String} :
    name ∈ tree.includedNames ↔ name ∈ tree.dependencyNames := by
  rw [includedNames, List.mem_flatMap]
  constructor
  · rintro ⟨location, hlocation, hname⟩
    cases hdependencies : tree.files.dependencies (tree.path location) with
    | error fault => simp [hdependencies] at hname
    | ok names =>
        obtain ⟨contents, hread, -⟩ := FileSystem.dependencies_eq_ok hdependencies
        rw [hdependencies] at hname
        exact ⟨location, mem_locations_iff.mp hlocation,
          FileSystem.isDirectory_eq_false_of_read hread, names, hdependencies, hname⟩
  · rintro ⟨location, hentry, -, names, hdependencies, hname⟩
    refine ⟨location, mem_locations_iff.mpr hentry, ?_⟩
    rw [hdependencies]
    exact hname

theorem finite_dependencyNames (tree : SourceTree) : tree.dependencyNames.Finite := by
  refine (List.finite_toSet tree.includedNames).subset ?_
  intro name hname
  exact mem_includedNames_iff.mpr hname

theorem HasDepth.le_ncard_dependencyNames {depth : Nat} {name : String}
    (hdepth : tree.HasDepth tables headers depth name) :
    depth ≤ tree.dependencyNames.ncard := by
  obtain ⟨way, hnodup, hlength, -, hincluded⟩ := hdepth.exists_way
  have hsubset : {passed | passed ∈ way} ⊆ tree.dependencyNames :=
    fun passed hpassed => mem_includedNames_iff.mp (hincluded hpassed)
  calc
    depth = way.toFinset.card := by rw [List.toFinset_card_of_nodup hnodup, hlength]
    _ = {passed | passed ∈ way}.ncard := by rw [← List.coe_toFinset, Set.ncard_coe_finset]
    _ ≤ tree.dependencyNames.ncard := Set.ncard_le_ncard hsubset tree.finite_dependencyNames

/-- A resolution is the one run of its rounds that there is without a limit on
their number, and it comes to an end: it has at most one round more than there
are names that files of the source tree include. -/
theorem resolve_rounds_le (tree : SourceTree) (tables : Tables) (headers : List String) :
    (∀ resolution, tree.Runs tables .empty headers resolution ↔
        resolution = tree.resolve tables headers) ∧
      tree.dependencyNames.Finite ∧
      (tree.resolve tables headers).rounds.length ≤ 1 + tree.dependencyNames.ncard := by
  have hruns := resolve_runs tree tables headers
  refine ⟨?_, tree.finite_dependencyNames, ?_⟩
  · intro resolution
    constructor
    · exact fun hother => hother.unique hruns
    · rintro rfl
      exact hruns
  · cases hlength : (tree.resolve tables headers).rounds.length with
    | zero => omega
    | succ number =>
        have hlast : number < (tree.resolve tables headers).rounds.length := by omega
        obtain ⟨hnonempty, hdepths⟩ := hruns.hasDepth_of_searched
          (Frontier.initial tree tables headers) (List.getElem?_eq_getElem hlast)
        obtain ⟨name, hname⟩ := List.exists_mem_of_ne_nil _ hnonempty
        have hle := (hdepths name hname).le_ncard_dependencyNames
        omega

end SourceTree

end Freestanding
