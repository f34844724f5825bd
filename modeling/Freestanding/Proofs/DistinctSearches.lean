import Freestanding.Proofs.IncludedNames
import Freestanding.Proofs.ReachedNames

/-!
# Resolutions that search each name once

A resolution searches a name as often as it is pending.  Dropping the names that
stand earlier among the pending ones already changes which names are pending in
the next round, but only by repeats: what is pending comes in the same order of
first occurrences, in every round.  So both resolutions come to the same answer,
and where they fail, they fail at the same name.
-/

namespace Freestanding

theorem Tables.eraseDups_pending (tables : Tables) (set : HeaderSet) {names others : List String}
    (hsame : names.eraseDups = others.eraseDups) :
    (tables.pending set names).eraseDups = (tables.pending set others).eraseDups := by
  rw [pending, pending, eraseDups_filter, eraseDups_filter, hsame]

theorem Tables.not_mem_names_of_mem_pending {tables : Tables} {set : HeaderSet}
    {discovered : List String} {name : String} (hname : name ∈ tables.pending set discovered) :
    name ∉ set.names := by
  have hkept := (List.mem_filter.mp hname).2
  simp only [Bool.and_eq_true, Bool.not_eq_true'] at hkept
  rw [← HeaderSet.contains_iff_mem_names, hkept.2]
  simp

namespace SourceTree

variable {tree : SourceTree} {tables : Tables} {headers : List String}

/-! ### What a round finds -/

def failure? (tree : SourceTree) (tables : Tables) (name : String) :
    Option (String × SearchError) :=
  match tree.search tables name with
  | .ok _ => none
  | .error error => some (name, error)

/-- What the header found for a name includes; nothing if there is none. -/
def includesOf (tree : SourceTree) (tables : Tables) (name : String) : List String :=
  match tree.search tables name with
  | .ok found => found.includes
  | .error _ => []

theorem failure_round (names : List String) :
    (tree.round tables names).failure = names.findSome? (tree.failure? tables) := by
  induction names with
  | nil => rfl
  | cons name rest ih =>
      rw [List.findSome?_cons, round, failure?]
      cases tree.search tables name with
      | error error => rfl
      | ok found => exact ih

theorem discovered_round {names : List String}
    (hfailure : (tree.round tables names).failure = none) :
    (tree.round tables names).discovered = names.flatMap (tree.includesOf tables) := by
  induction names with
  | nil => rfl
  | cons name rest ih =>
      rw [List.flatMap_cons, includesOf]
      rw [round] at hfailure ⊢
      cases hsearch : tree.search tables name with
      | error error => simp [hsearch] at hfailure
      | ok found =>
          simp only [hsearch] at hfailure
          simp only [Round.discovered, List.flatMap_cons, List.append_cancel_left_eq]
          exact ih hfailure

theorem failure_round_eraseDups (tree : SourceTree) (tables : Tables) (names : List String) :
    (tree.round tables names.eraseDups).failure = (tree.round tables names).failure := by
  rw [failure_round, failure_round, findSome?_eraseDups]

/-- Searching repeated names again discovers only what has been discovered. -/
theorem discovered_round_eraseDups {names : List String}
    (hfailure : (tree.round tables names).failure = none) :
    (tree.round tables names.eraseDups).discovered.eraseDups =
      (tree.round tables names).discovered.eraseDups := by
  have honce := (failure_round_eraseDups tree tables names).trans hfailure
  rw [discovered_round hfailure, discovered_round honce, eraseDups_flatMap_eraseDups]

theorem searched_isPrefix (tree : SourceTree) (tables : Tables) (names : List String) :
    (tree.round tables names).searched <+: names := by
  induction names with
  | nil => exact List.prefix_rfl
  | cons name rest ih =>
      rw [round]
      cases tree.search tables name with
      | error error => simp [Round.searched]
      | ok found => exact (List.prefix_append_right_inj [name]).mpr ih

theorem map_fst_located_of_failure_eq_none {names : List String}
    (hfailure : (tree.round tables names).failure = none) :
    (tree.round tables names).located.map Prod.fst = (tree.round tables names).searched := by
  simp [Round.located, Round.searched, hfailure, Function.comp_def]

/-! ### Searching once -/

/-- At most `limit` rounds, each of which searches the pending names that do not
stand earlier among them. -/
def resolveEachOnceFrom (tree : SourceTree) (tables : Tables) :
    Nat → HeaderSet → List String → Resolution
  | _, set, [] => ⟨[], .ok set⟩
  | 0, set, _ :: _ => ⟨[], .ok set⟩
  | limit + 1, set, header :: rest =>
    let round := tree.round tables (header :: rest).eraseDups
    match round.failure with
    | some (_, error) => ⟨[round], .error error⟩
    | none =>
      let set := set.insertMany round.located
      let later := tree.resolveEachOnceFrom tables limit set (tables.pending set round.discovered)
      { later with rounds := round :: later.rounds }

section Frontier

variable {depth : Nat} {set other : HeaderSet} {pending others : List String}

theorem Frontier.of_mem_iff (hfrontier : Frontier tree tables headers depth set pending)
    (hsame : ∀ name, name ∈ others ↔ name ∈ pending) :
    Frontier tree tables headers depth set others where
  pending_iff name := (hsame name).trans (hfrontier.pending_iff name)
  located_iff := hfrontier.located_iff
  location := hfrontier.location

/-- The header set before the round of a depth is told by the depth. -/
theorem Frontier.set_unique (hset : Frontier tree tables headers depth set pending)
    (hother : Frontier tree tables headers depth other others) : set = other := by
  apply HeaderSet.eq_of_get?_eq
  intro name
  have hnames : name ∈ set.names ↔ name ∈ other.names :=
    (hset.located_iff name).trans (hother.located_iff name).symm
  by_cases hname : name ∈ set.names
  · obtain ⟨location, hget⟩ := HeaderSet.mem_names_iff.mp hname
    obtain ⟨location', hget'⟩ := HeaderSet.mem_names_iff.mp (hnames.mp hname)
    obtain ⟨found, hsearch, rfl⟩ := hset.location name location hget
    obtain ⟨found', hsearch', rfl⟩ := hother.location name location' hget'
    rw [hsearch, Except.ok.injEq] at hsearch'
    rw [hget, hget', hsearch']
  · rw [HeaderSet.get?_eq_none_iff.mpr hname, HeaderSet.get?_eq_none_iff.mpr (mt hnames.mpr hname)]

/-- From one frontier on, with pending names of the same first occurrences, both
ways of searching come to the same. -/
theorem Frontier.outcome_resolveEachOnceFrom {limit : Nat}
    (hfrontier : Frontier tree tables headers depth set pending)
    (hsame : others.eraseDups = pending.eraseDups) :
    (tree.resolveEachOnceFrom tables limit set others).outcome =
      (tree.resolveFrom tables limit set pending).outcome := by
  induction limit generalizing depth set pending others with
  | zero => cases others <;> cases pending <;> rfl
  | succ limit ih =>
      cases pending with
      | nil =>
          cases others with
          | nil => rfl
          | cons => simp [List.eraseDups_cons] at hsame
      | cons header rest =>
          cases others with
          | nil => simp [List.eraseDups_cons] at hsame
          | cons first more =>
              have honce := failure_round_eraseDups tree tables (header :: rest)
              unfold resolveEachOnceFrom resolveFrom
              rw [hsame]
              cases hfailure : (tree.round tables (header :: rest)).failure with
              | some failure => simp only [honce, hfailure]
              | none =>
                  have hnext := hfrontier.step hfailure
                  have hdropped : Frontier tree tables headers depth set
                      (header :: rest).eraseDups :=
                    hfrontier.of_mem_iff fun _ => List.mem_eraseDups
                  have hset := (hdropped.step (honce.trans hfailure)).set_unique hnext
                  have hpending := tables.eraseDups_pending
                    (set.insertMany (tree.round tables (header :: rest)).located)
                    (discovered_round_eraseDups hfailure)
                  simp only [honce, hfailure, hset]
                  exact ih hnext hpending

end Frontier

/-! ### No name is searched twice -/

/-- Searching pending names once each that have no location yet, later rounds
included, comes to no name twice and to none that had a location. -/
theorem nodup_searched_resolveEachOnceFrom (limit : Nat) {set : HeaderSet}
    {pending : List String} (hfresh : ∀ name ∈ pending, name ∉ set.names) :
    ((tree.resolveEachOnceFrom tables limit set pending).rounds.flatMap Round.searched).Nodup ∧
      ∀ name ∈ (tree.resolveEachOnceFrom tables limit set pending).rounds.flatMap Round.searched,
        name ∉ set.names := by
  induction limit generalizing set pending with
  | zero => cases pending <;> simp [resolveEachOnceFrom]
  | succ limit ih =>
      cases pending with
      | nil => simp [resolveEachOnceFrom]
      | cons header rest =>
          have hround := tree.searched_isPrefix tables (header :: rest).eraseDups
          have hnodup : (tree.round tables (header :: rest).eraseDups).searched.Nodup :=
            hround.sublist.nodup (nodup_eraseDups _)
          have hnew : ∀ name ∈ (tree.round tables (header :: rest).eraseDups).searched,
              name ∉ set.names :=
            fun name hname => hfresh name (List.mem_eraseDups.mp (hround.mem hname))
          unfold resolveEachOnceFrom
          cases hfailure : (tree.round tables (header :: rest).eraseDups).failure with
          | some failure =>
              simp only [hfailure, List.flatMap_singleton]
              exact ⟨hnodup, hnew⟩
          | none =>
              have hlocated : ∀ name, name ∈
                  (set.insertMany (tree.round tables (header :: rest).eraseDups).located).names ↔
                    name ∈ (tree.round tables (header :: rest).eraseDups).searched ∨
                      name ∈ set.names := by
                intro name
                rw [HeaderSet.mem_names_insertMany, map_fst_located_of_failure_eq_none hfailure]
              obtain ⟨hlater, hbehind⟩ := ih fun name hname =>
                Tables.not_mem_names_of_mem_pending hname
              simp only [hfailure, List.flatMap_cons]
              constructor
              · refine List.nodup_append.mpr ⟨hnodup, hlater, ?_⟩
                rintro name hname _ hagain rfl
                exact hbehind name hagain ((hlocated name).mpr (.inl hname))
              · intro name hname
                rcases List.mem_append.mp hname with hname | hname
                · exact hnew name hname
                · exact fun hold => hbehind name hname ((hlocated name).mpr (.inr hold))

/-- Dropping from the pending names those that stand earlier among them changes
neither the header set of a resolution nor its error, however many rounds are
allowed, and then a whole run searches no name twice. -/
theorem resolve_eq_resolveEachOnce (tree : SourceTree) (tables : Tables)
    (headers : List String) :
    (∀ limit, tree.capacity < limit →
      (tree.resolveEachOnceFrom tables limit .empty headers).outcome =
        (tree.resolve tables headers).outcome) ∧
      ∀ limit,
        ((tree.resolveEachOnceFrom tables limit .empty headers).rounds.flatMap
          Round.searched).Nodup := by
  constructor
  · intro limit hlimit
    rw [← resolveFrom_eq_resolve hlimit]
    exact (Frontier.initial tree tables headers).outcome_resolveEachOnceFrom rfl
  · intro limit
    exact (nodup_searched_resolveEachOnceFrom limit fun name _ => List.not_mem_nil).1

end SourceTree

end Freestanding
