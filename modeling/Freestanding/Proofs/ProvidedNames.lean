import Freestanding.Proofs.ReachedNames

/-!
# More provided names

The more names the environment provides, the fewer a resolution has to locate.
What is still reached is found in the same places, since a search does not look
at the provided names, so a resolution that succeeded succeeds again.

A name that has become provided is lost unless the resolution starts with it.
What it alone led to is lost with it, and everything else stays.  So nothing is
lost exactly if every located name that is provided now is one to start with.
-/

namespace Freestanding

/-- Whether tables search names under the same substitutes as others, and provide
all that they do. -/
structure Tables.ProvidesMore (more tables : Tables) : Prop where
  aliases : more.aliases = tables.aliases
  provided : tables.provided ⊆ more.provided

namespace SourceTree

variable {tree : SourceTree} {tables more : Tables} {headers : List String} {name : String}
  {set smaller : HeaderSet}

theorem search_eq_of_aliases_eq (haliases : more.aliases = tables.aliases) (name : String) :
    tree.search more name = tree.search tables name := by
  have hname : more.searchName name = tables.searchName name := by
    rw [Tables.searchName, Tables.substitute?, haliases]
    rfl
  rw [search, search, hname]

theorem requires_iff_of_providesMore (hmore : more.ProvidesMore tables) {required : String} :
    tree.Requires more name required ↔
      tree.Requires tables name required ∧ required ∉ more.provided := by
  simp only [Requires, search_eq_of_aliases_eq hmore.aliases]
  constructor
  · rintro ⟨found, hsearch, hincluded, hneeded⟩
    have hformerly : required ∉ tables.provided := fun hmem => hneeded (hmore.provided hmem)
    exact ⟨⟨found, hsearch, hincluded, hformerly⟩, hneeded⟩
  · rintro ⟨⟨found, hsearch, hincluded, -⟩, hneeded⟩
    exact ⟨found, hsearch, hincluded, hneeded⟩

/-- A provided name is reached only if it is one to start with. -/
theorem Reaches.mem_of_mem_provided (hreaches : tree.Reaches tables headers name)
    (hprovided : name ∈ tables.provided) : name ∈ headers := by
  cases hreaches with
  | header hname => exact hname
  | required _ hrequires =>
      obtain ⟨_, -, -, hneeded⟩ := hrequires
      exact absurd hprovided hneeded

theorem Reaches.of_providesMore (hmore : more.ProvidesMore tables)
    (hreaches : tree.Reaches more headers name) : tree.Reaches tables headers name := by
  induction hreaches with
  | header hname => exact .header hname
  | required _ hrequires ih =>
      exact .required ih ((requires_iff_of_providesMore hmore).mp hrequires).1

/-- Names are still reached when none of the names on the way to them, unless it
is one to start with, has become provided. -/
theorem Reaches.of_provided_subset (hmore : more.ProvidesMore tables)
    (hkept : ∀ passed, tree.Reaches tables headers passed → passed ∈ more.provided →
      passed ∈ headers)
    (hreaches : tree.Reaches tables headers name) : tree.Reaches more headers name := by
  induction hreaches with
  | header hname => exact .header hname
  | @required parent required hparent hrequires ih =>
      by_cases hprovided : required ∈ more.provided
      · exact .header (hkept required (.required hparent hrequires) hprovided)
      · exact .required ih ((requires_iff_of_providesMore hmore).mpr ⟨hrequires, hprovided⟩)

/-- What is still reached has the location that it had. -/
theorem LocatesReached.get?_of_providesMore (hmore : more.ProvidesMore tables)
    (hset : tree.LocatesReached tables headers set)
    (hsmaller : tree.LocatesReached more headers smaller) {location : Path}
    (hget : smaller.get? name = some location) : set.get? name = some location := by
  have hreaches := hsmaller.reached name (HeaderSet.mem_names_iff.mpr ⟨location, hget⟩)
  obtain ⟨found, hsearch, hlocated⟩ := hset.located name (hreaches.of_providesMore hmore)
  obtain ⟨again, hagain, hsame⟩ := hsmaller.located name hreaches
  rw [search_eq_of_aliases_eq hmore.aliases, hsearch, Except.ok.injEq] at hagain
  rw [hlocated, hagain, ← hsame, hget]

/-- Nothing is lost exactly if every located name that is provided now is one to
start with. -/
theorem LocatesReached.eq_iff_of_providesMore (hmore : more.ProvidesMore tables)
    (hset : tree.LocatesReached tables headers set)
    (hsmaller : tree.LocatesReached more headers smaller) :
    smaller = set ↔ ∀ name ∈ set.names, name ∈ more.provided → name ∈ headers := by
  constructor
  · rintro rfl name hname hprovided
    exact (hsmaller.reached name hname).mem_of_mem_provided hprovided
  · intro hkept
    apply HeaderSet.eq_of_get?_eq
    intro name
    have hstill : tree.Reaches tables headers name → tree.Reaches more headers name := by
      apply Reaches.of_provided_subset hmore
      intro passed hpassed
      exact hkept passed (hset.mem_names_iff.mpr hpassed)
    cases hget : smaller.get? name with
    | some location => exact (hset.get?_of_providesMore hmore hsmaller hget).symm
    | none =>
        have hlost := hsmaller.get?_eq_none_iff.mp hget
        exact (hset.get?_eq_none_iff.mpr fun hreaches => hlost (hstill hreaches)).symm

/-- When the environment provides more names, a resolution that succeeded
succeeds again, to a part of its header set.  It comes to the whole set exactly
if every name of the set that is provided now is one to start with. -/
theorem resolve_shrinks_of_providesMore (hmore : more.ProvidesMore tables)
    (hresolve : (tree.resolve tables headers).outcome = .ok set) :
    ∃ smaller, (tree.resolve more headers).outcome = .ok smaller ∧
      (∀ name location, smaller.get? name = some location → set.get? name = some location) ∧
      (smaller = set ↔ ∀ name ∈ set.names, name ∈ more.provided → name ∈ headers) := by
  rw [resolve_eq_ok_iff] at hresolve
  have hfound : ∀ name, tree.Reaches more headers name →
      ∃ found, tree.search more name = .ok found := by
    intro name hreaches
    obtain ⟨found, hsearch, -⟩ := hresolve.located name (hreaches.of_providesMore hmore)
    exact ⟨found, (search_eq_of_aliases_eq hmore.aliases name).trans hsearch⟩
  obtain ⟨smaller, hsmaller⟩ := exists_resolve_eq_ok_iff.mpr hfound
  have hlocates := resolve_eq_ok_iff.mp hsmaller
  refine ⟨smaller, hsmaller, ?_, ?_⟩
  · intro name location hget
    exact hresolve.get?_of_providesMore hmore hlocates hget
  · exact hresolve.eq_iff_of_providesMore hmore hlocates

/-- The two headers that include each other, where the environment provides one of
them. -/
def provisionedTables : Tables where
  aliases := mutualTables.aliases
  provided := ["stdint.h", "b"]

theorem resolve_shrinks_of_providesMore_mutual :
    provisionedTables.ProvidesMore mutualTables ∧
      (mutualTree.resolve mutualTables ["a"]).outcome = .ok mutualSet ∧
      ∃ smaller, (mutualTree.resolve provisionedTables ["a"]).outcome = .ok smaller ∧
        (∀ name location, smaller.get? name = some location →
          mutualSet.get? name = some location) ∧
        (smaller = mutualSet ↔
          ∀ name ∈ mutualSet.names, name ∈ provisionedTables.provided → name ∈ ["a"]) := by
  have hmore : provisionedTables.ProvidesMore mutualTables := ⟨rfl, by decide⟩
  have hresolve : (mutualTree.resolve mutualTables ["a"]).outcome = .ok mutualSet := rfl
  exact ⟨hmore, hresolve, resolve_shrinks_of_providesMore hmore hresolve⟩

end SourceTree

end Freestanding
