import Freestanding.Proofs.ProvidedNames
import Freestanding.Proofs.RoundCount

/-!
# A resolution round by round

A round of a resolution searches names of one depth, and all of them unless a search
fails.  What is pending behind the first round has no location yet and is not provided,
and behind a round without failure the names are located that are no deeper than those
it has searched.

So no name is searched in two rounds, and a provided name only if the resolution starts
with it.  A failed search reports the name under which it looked for a header, though,
and this may be a provided name that stands in for another one.
-/

namespace Freestanding

theorem Round.mem_searched_of_failure {round : Round} {name : String} {error : SearchError}
    (hfailure : round.failure = some (name, error)) : name ∈ round.searched := by
  simp [searched, hfailure]

namespace SourceTree

variable {tree : SourceTree} {tables : Tables} {headers pending : List String} {set : HeaderSet}
  {resolution : Resolution} {round : Round} {depth number : Nat} {name : String}
  {error : SearchError}

/-! ### How a run ends -/

/-- When a run succeeds, nothing is pending behind the last round, and the header set
there is the answer. -/
theorem Runs.stage_of_outcome_eq_ok (hruns : tree.Runs tables set pending resolution)
    {answer : HeaderSet} (houtcome : resolution.outcome = .ok answer) :
    (∀ round ∈ resolution.rounds, round.failure = none) ∧
      resolution.stage tables ⟨set, pending⟩ resolution.rounds.length = ⟨answer, []⟩ := by
  induction hruns with
  | complete =>
      simp only [Except.ok.injEq] at houtcome
      subst answer
      exact ⟨by simp, rfl⟩
  | failed => simp at houtcome
  | next hfailure _ ih =>
      obtain ⟨hcompleted, hstage⟩ := ih houtcome
      exact ⟨List.forall_mem_cons.mpr ⟨hfailure, hcompleted⟩, hstage⟩

/-- When a run fails, its last round does and the rounds before it do not. -/
theorem Runs.exists_rounds_of_outcome_eq_error
    (hruns : tree.Runs tables set pending resolution)
    (houtcome : resolution.outcome = .error error) :
    ∃ completed last name, resolution.rounds = completed ++ [last] ∧
      (∀ round ∈ completed, round.failure = none) ∧ last.failure = some (name, error) := by
  induction hruns with
  | complete => simp at houtcome
  | @failed _ _ _ name _ hfailure =>
      simp only [Except.error.injEq] at houtcome
      subst error
      exact ⟨[], _, name, rfl, by simp, hfailure⟩
  | @next _ header rest _ hfailure _ ih =>
      obtain ⟨completed, last, name, hrounds, hcompleted, hlast⟩ := ih houtcome
      refine ⟨tree.round tables (header :: rest) :: completed, last, name, ?_, ?_, hlast⟩
      · simp only [hrounds, List.cons_append]
      · exact List.forall_mem_cons.mpr ⟨hfailure, hcompleted⟩

/-! ### One round -/

theorem searched_of_failure_eq_none (hfailure : (tree.round tables pending).failure = none) :
    (tree.round tables pending).searched = pending := by
  rw [Round.searched, hfailure, map_fst_found_of_failure_eq_none hfailure]
  simp

theorem Frontier.fresh (hfrontier : Frontier tree tables headers depth set pending)
    (hpositive : 0 < depth) (hname : name ∈ pending) :
    name ∉ set.names ∧ name ∉ tables.provided := by
  have hdepth := (hfrontier.pending_iff name).mp hname
  constructor
  · intro hlocated
    obtain ⟨smaller, hlt, hsmaller⟩ := (hfrontier.located_iff name).mp hlocated
    exact hdepth.not_smaller hlt hsmaller
  · cases depth with
    | zero => omega
    | succ depth =>
        obtain ⟨-, parent, -, found, -, -, hneeded⟩ := hasDepth_succ.mp hdepth
        exact hneeded

/-- Whether a round searches the names of a depth: what it searches, what is pending
before it and what is located behind it. -/
structure SearchesDepth (tree : SourceTree) (tables : Tables) (headers : List String)
    (depth : Nat) (before : Stage) (round : Round) : Prop where
  round_eq : tree.round tables before.pending = round
  searched : ∀ name ∈ round.searched, tree.HasDepth tables headers depth name
  complete : round.failure = none →
    ∀ name, tree.HasDepth tables headers depth name → name ∈ round.searched
  fresh : 0 < depth →
    ∀ name ∈ before.pending, name ∉ before.set.names ∧ name ∉ tables.provided
  located : round.failure = none →
    ∀ name, name ∈ (before.after tables round).set.names ↔
      ∃ smaller ≤ depth, tree.HasDepth tables headers smaller name

theorem Frontier.searchesDepth {before : Stage}
    (hfrontier : Frontier tree tables headers depth before.set before.pending)
    (hround : tree.round tables before.pending = round) :
    tree.SearchesDepth tables headers depth before round := by
  subst round
  constructor
  · rfl
  · intro name hname
    exact hfrontier.hasDepth_of_mem_searched hname
  · intro hfailure name hdepth
    rw [searched_of_failure_eq_none hfailure]
    exact (hfrontier.pending_iff name).mpr hdepth
  · intro hpositive name hname
    exact hfrontier.fresh hpositive hname
  · intro hfailure name
    have hlocated := hfrontier.located_after_round hfailure name
    simp only [Nat.lt_succ_iff] at hlocated
    exact hlocated

theorem resolve_searchesDepth
    (hround : (tree.resolve tables headers).rounds[number]? = some round) :
    tree.SearchesDepth tables headers number
      ((tree.resolve tables headers).stage tables (.initial headers) number) round := by
  have hstage := (resolve_runs tree tables headers).frontier_stage
    (Frontier.initial tree tables headers) hround
  rw [Nat.zero_add] at hstage
  exact hstage.1.searchesDepth hstage.2.2

/-! ### Provided names -/

theorem HasDepth.mem_of_mem_provided (hdepth : tree.HasDepth tables headers depth name)
    (hprovided : name ∈ tables.provided) : name ∈ headers :=
  (reaches_iff_exists_hasDepth.mpr ⟨depth, hdepth⟩).mem_of_mem_provided hprovided

theorem mem_of_mem_searched_of_mem_provided
    (hround : round ∈ (tree.resolve tables headers).rounds) (hname : name ∈ round.searched)
    (hprovided : name ∈ tables.provided) : name ∈ headers := by
  obtain ⟨number, hnumber⟩ := List.mem_iff_getElem?.mp hround
  have hdepth := (resolve_searchesDepth hnumber).searched name hname
  exact hdepth.mem_of_mem_provided hprovided

theorem search_of_mem_rounds_of_failure
    (hround : round ∈ (tree.resolve tables headers).rounds)
    (hfailure : round.failure = some (name, error)) : tree.search tables name = .error error := by
  obtain ⟨number, hnumber⟩ := List.mem_iff_getElem?.mp hround
  rw [← (resolve_searchesDepth hnumber).round_eq] at hfailure
  exact (search_of_failure hfailure).2

/-- A search that reports another name than its own has looked under that name. -/
theorem substitute?_of_search_eq_notFound {missing : String} {root : Path}
    (hsearch : tree.search tables name = .error (.notFound missing root))
    (hother : missing ≠ name) : tables.substitute? name = some missing := by
  have hmissing : missing = tables.searchName name := by
    rcases search_eq_error hsearch with hnone | ⟨location, fault, -, -, hunreadable⟩
    · simp only [SearchError.notFound.injEq] at hnone
      exact hnone.2.1
    · simp at hunreadable
  cases hsubstitute : tables.substitute? name with
  | none =>
      rw [Tables.searchName, hsubstitute, Option.getD_none] at hmissing
      exact absurd hmissing hother
  | some substitute =>
      rw [Tables.searchName, hsubstitute, Option.getD_some] at hmissing
      rw [hmissing]

/-- A resolution searches in each round names of the depth that is the number of the
round, and all of them unless a search fails.  So it searches no name in two rounds,
and a provided name only if it starts with it.  The search of a name that is provided
and that it does not start with is therefore never the one that fails; another search
can report this name, but only if the tables substitute it. -/
theorem resolve_searches_by_depth (tree : SourceTree) (tables : Tables)
    (headers : List String) :
    let resolution := tree.resolve tables headers
    let stage := resolution.stage tables (.initial headers)
    (∀ number round, resolution.rounds[number]? = some round →
        tree.SearchesDepth tables headers number (stage number) round) ∧
      (∀ (number other : Nat) (round again : Round), resolution.rounds[number]? = some round →
        resolution.rounds[other]? = some again →
          ∀ name ∈ round.searched, name ∈ again.searched → number = other) ∧
      (∀ round ∈ resolution.rounds, ∀ name ∈ round.searched,
        name ∈ tables.provided → name ∈ headers) ∧
      (∀ set, resolution.outcome = .ok set →
        (∀ round ∈ resolution.rounds, round.failure = none) ∧
          stage resolution.rounds.length = ⟨set, []⟩) ∧
      ∀ error, resolution.outcome = .error error →
        ∃ completed last name, resolution.rounds = completed ++ [last] ∧
          (∀ round ∈ completed, round.failure = none) ∧
          last.failure = some (name, error) ∧ (name ∈ tables.provided → name ∈ headers) ∧
          ∀ missing root, error = .notFound missing root → missing ∈ tables.provided →
            missing ∉ headers → missing ≠ name ∧ tables.substitute? name = some missing := by
  intro resolution stage
  have hruns := resolve_runs tree tables headers
  refine ⟨?_, ?_, ?_, ?_, ?_⟩
  · intro number round hround
    exact resolve_searchesDepth hround
  · intro number other round again hround hagain name hname hsame
    have hdepth := (resolve_searchesDepth hround).searched name hname
    have hother := (resolve_searchesDepth hagain).searched name hsame
    exact hdepth.unique hother
  · intro round hround name hname hprovided
    exact mem_of_mem_searched_of_mem_provided hround hname hprovided
  · intro set houtcome
    exact hruns.stage_of_outcome_eq_ok houtcome
  · intro error houtcome
    obtain ⟨completed, last, name, hrounds, hcompleted, hlast⟩ :=
      hruns.exists_rounds_of_outcome_eq_error houtcome
    have hround : last ∈ resolution.rounds := by
      rw [hrounds]
      exact List.mem_append_right _ (List.mem_singleton_self last)
    have hname : name ∈ tables.provided → name ∈ headers := by
      intro hprovided
      have hsearched := Round.mem_searched_of_failure hlast
      exact mem_of_mem_searched_of_mem_provided hround hsearched hprovided
    refine ⟨completed, last, name, hrounds, hcompleted, hlast, hname, ?_⟩
    intro missing root herror hprovided hmissing
    have hother : missing ≠ name := by
      intro hsame
      subst missing
      exact hmissing (hname hprovided)
    have hsearch := search_of_mem_rounds_of_failure hround hlast
    rw [herror] at hsearch
    exact ⟨hother, substitute?_of_search_eq_notFound hsearch hother⟩

def standInTables : Tables where
  aliases := [("b", "stdint.h")]
  provided := ["stdint.h"]

/-- A provided name is reported as missing though it is never searched, since it stands
in for one that is. -/
theorem resolve_reports_provided :
    "stdint.h" ∈ standInTables.provided ∧ "stdint.h" ∉ ["a"] ∧
      (({ mutualTree with root := ⟨"."⟩ } : SourceTree).resolve standInTables ["a"]).rounds.map
        Round.searched = [["a"], ["b"]] ∧
      (({ mutualTree with root := ⟨"."⟩ } : SourceTree).resolve standInTables ["a"]).outcome =
        .error (.notFound "stdint.h" ⟨"."⟩) :=
  ⟨by decide, by decide, rfl, rfl⟩

end SourceTree

end Freestanding
