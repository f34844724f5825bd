import Freestanding.Proofs.IncludeGraph

/-!
# The frontier of a resolution

Before the round numbered `depth`, the header set holds the names of smaller
depth and the pending names are those of that depth, however often each is
listed.  `Frontier` says so; a round in which every search succeeds keeps it,
and `Frontier.ends` follows it through all rounds.  The limit on the number of
rounds never cuts a resolution short, since no depth exceeds it.
-/

namespace Freestanding

namespace SourceTree

variable {tree : SourceTree} {tables : Tables} {headers : List String}

/-! ### One round -/

theorem search_of_mem_found {names : List String} {name : String} {found : Located}
    (hentry : (name, found) ∈ (tree.round tables names).found) :
    tree.search tables name = .ok found := by
  induction names with
  | nil => simp [round] at hentry
  | cons first rest ih =>
      unfold round at hentry
      split at hentry
      next => simp at hentry
      next other hsearch =>
        rcases List.mem_cons.mp hentry with heq | hentry
        · obtain ⟨rfl, rfl⟩ := Prod.mk.inj heq
          exact hsearch
        · exact ih hentry

theorem search_of_failure {names : List String} {name : String} {error : SearchError}
    (hfailure : (tree.round tables names).failure = some (name, error)) :
    name ∈ names ∧ tree.search tables name = .error error := by
  induction names with
  | nil => simp [round] at hfailure
  | cons first rest ih =>
      unfold round at hfailure
      split at hfailure
      next failed hsearch =>
        simp only [Option.some.injEq, Prod.mk.injEq] at hfailure
        obtain ⟨rfl, rfl⟩ := hfailure
        exact ⟨List.mem_cons_self, hsearch⟩
      next found hsearch =>
        obtain ⟨hmem, hfailed⟩ := ih hfailure
        exact ⟨List.mem_cons_of_mem _ hmem, hfailed⟩

theorem map_fst_found_of_failure_eq_none {names : List String}
    (hfailure : (tree.round tables names).failure = none) :
    (tree.round tables names).found.map Prod.fst = names := by
  induction names with
  | nil => rfl
  | cons name rest ih =>
      unfold round at hfailure ⊢
      split at hfailure
      next => simp at hfailure
      next found hsearch =>
        simp only [List.map_cons, List.cons.injEq, true_and]
        exact ih hfailure

/-! ### The invariant -/

/-- What holds when the round of a depth is about to begin. -/
structure Frontier (tree : SourceTree) (tables : Tables) (headers : List String)
    (depth : Nat) (set : HeaderSet) (pending : List String) : Prop where
  pending_iff : ∀ name, name ∈ pending ↔ tree.HasDepth tables headers depth name
  located_iff : ∀ name, name ∈ set.names ↔
    ∃ smaller < depth, tree.HasDepth tables headers smaller name
  location : ∀ name location, set.get? name = some location →
    ∃ found, tree.search tables name = .ok found ∧ found.location = location

theorem Frontier.initial (tree : SourceTree) (tables : Tables) (headers : List String) :
    Frontier tree tables headers 0 .empty headers := by
  constructor
  · intro name
    exact hasDepth_zero.symm
  · intro name
    simp [HeaderSet.empty, HeaderSet.names]
  · intro name location hget
    simp [HeaderSet.empty, HeaderSet.get?] at hget

theorem Frontier.search_of_mem {depth : Nat} {set : HeaderSet} {pending : List String}
    (hfrontier : Frontier tree tables headers depth set pending) {name : String}
    (hname : name ∈ set.names) : ∃ found, tree.search tables name = .ok found := by
  have hcontains := (set.contains_iff_mem_names name).mpr hname
  obtain ⟨location, hget⟩ := Option.isSome_iff_exists.mp hcontains
  obtain ⟨found, hsearch, -⟩ := hfrontier.location name location hget
  exact ⟨found, hsearch⟩

section Step

variable {depth : Nat} {set : HeaderSet} {pending : List String}

theorem Frontier.located_after_round
    (hfrontier : Frontier tree tables headers depth set pending)
    (hfailure : (tree.round tables pending).failure = none) (name : String) :
    name ∈ (set.insertMany (tree.round tables pending).located).names ↔
      ∃ smaller < depth + 1, tree.HasDepth tables headers smaller name := by
  have hnames :
      (tree.round tables pending).located.map Prod.fst = pending := by
    simpa [Round.located, Function.comp_def] using
      map_fst_found_of_failure_eq_none hfailure
  rw [HeaderSet.mem_names_insertMany, hnames, hfrontier.pending_iff,
    hfrontier.located_iff]
  constructor
  · rintro (hdepth | ⟨smaller, hlt, hsmaller⟩)
    · exact ⟨depth, by omega, hdepth⟩
    · exact ⟨smaller, by omega, hsmaller⟩
  · rintro ⟨smaller, hlt, hsmaller⟩
    rcases Nat.lt_succ_iff_lt_or_eq.mp hlt with hlt | rfl
    · exact .inr ⟨smaller, hlt, hsmaller⟩
    · exact .inl hsmaller

theorem Frontier.mem_discovered_iff
    (hfrontier : Frontier tree tables headers depth set pending)
    (hfailure : (tree.round tables pending).failure = none) (name : String) :
    name ∈ (tree.round tables pending).discovered ↔
      ∃ parent, tree.HasDepth tables headers depth parent ∧
        ∃ found, tree.search tables parent = .ok found ∧ name ∈ found.includes := by
  rw [Round.discovered, List.mem_flatMap]
  constructor
  · rintro ⟨⟨parent, found⟩, hentry, hmem⟩
    have hpending : parent ∈ pending := by
      rw [← map_fst_found_of_failure_eq_none hfailure]
      exact List.mem_map.mpr ⟨_, hentry, rfl⟩
    exact ⟨parent, (hfrontier.pending_iff parent).mp hpending, found,
      search_of_mem_found hentry, hmem⟩
  · rintro ⟨parent, hdepth, found, hsearch, hmem⟩
    have hpending := (hfrontier.pending_iff parent).mpr hdepth
    rw [← map_fst_found_of_failure_eq_none hfailure] at hpending
    obtain ⟨⟨other, found'⟩, hentry, rfl⟩ := List.mem_map.mp hpending
    have hfound := search_of_mem_found hentry
    rw [hsearch, Except.ok.injEq] at hfound
    subst hfound
    exact ⟨_, hentry, hmem⟩

/-- A round without failure leads to the frontier of the next depth. -/
theorem Frontier.step
    (hfrontier : Frontier tree tables headers depth set pending)
    (hfailure : (tree.round tables pending).failure = none) :
    Frontier tree tables headers (depth + 1)
      (set.insertMany (tree.round tables pending).located)
      (tables.pending (set.insertMany (tree.round tables pending).located)
        (tree.round tables pending).discovered) := by
  have hlocated := hfrontier.located_after_round hfailure
  constructor
  · intro name
    have hcontains : (set.insertMany (tree.round tables pending).located).contains name
        = true ↔ ∃ smaller < depth + 1, tree.HasDepth tables headers smaller name :=
      (HeaderSet.contains_iff_mem_names _ _).trans (hlocated name)
    rw [Tables.pending, List.mem_filter, hfrontier.mem_discovered_iff hfailure,
      hasDepth_succ]
    constructor
    · rintro ⟨⟨parent, hdepth, found, hsearch, hmem⟩, hkept⟩
      simp only [Bool.and_eq_true, decide_eq_true_eq, Bool.not_eq_true',
        ← Bool.not_eq_true, hcontains] at hkept
      refine ⟨?_, parent, hdepth, found, hsearch, hmem, hkept.1⟩
      intro smaller hle hsmaller
      exact hkept.2 ⟨smaller, by omega, hsmaller⟩
    · rintro ⟨hfresh, parent, hdepth, found, hsearch, hmem, hprovided⟩
      refine ⟨⟨parent, hdepth, found, hsearch, hmem⟩, ?_⟩
      simp only [Bool.and_eq_true, decide_eq_true_eq, Bool.not_eq_true',
        ← Bool.not_eq_true, hcontains]
      refine ⟨hprovided, ?_⟩
      rintro ⟨smaller, hlt, hsmaller⟩
      exact hfresh smaller (by omega) hsmaller
  · exact hlocated
  · intro name location hget
    rcases HeaderSet.mem_or_of_get?_insertMany hget with hmem | hbefore
    · obtain ⟨⟨other, found⟩, hentry, heq⟩ := List.mem_map.mp hmem
      simp only [Prod.mk.injEq] at heq
      obtain ⟨rfl, rfl⟩ := heq
      exact ⟨found, search_of_mem_found hentry, rfl⟩
    · exact hfrontier.location name location hbefore

end Step

/-! ### All rounds -/

/-- How a resolution ends: no name has the next depth, or the search of a name
fails and those of all names of smaller depth do not. -/
inductive Ends (tree : SourceTree) (tables : Tables) (headers : List String) :
    Except SearchError HeaderSet → Prop
  | complete {depth : Nat} {set : HeaderSet}
      (hfrontier : Frontier tree tables headers depth set []) :
      Ends tree tables headers (.ok set)
  | failed {depth : Nat} {name : String} {error : SearchError}
      (hdepth : tree.HasDepth tables headers depth name)
      (hsearch : tree.search tables name = .error error)
      (hsmaller : ∀ smaller < depth, ∀ other,
        tree.HasDepth tables headers smaller other →
          ∃ found, tree.search tables other = .ok found) :
      Ends tree tables headers (.error error)

/-- No name is pending when there have been more rounds than depths. -/
theorem Frontier.pending_eq_nil {depth : Nat} {set : HeaderSet} {pending : List String}
    (hfrontier : Frontier tree tables headers depth set pending)
    (hcapacity : tree.capacity < depth) : pending = [] := by
  cases pending with
  | nil => rfl
  | cons name rest =>
      have hdepth := (hfrontier.pending_iff name).mp List.mem_cons_self
      have hle := hdepth.le_length_includedNames
      have hnames := tree.length_includedNames_le_capacity
      omega

/-- Rounds that start from a frontier come to an end before the limit does. -/
theorem Frontier.ends {limit depth : Nat} {set : HeaderSet} {pending : List String}
    (hfrontier : Frontier tree tables headers depth set pending)
    (hlimit : tree.capacity < limit + depth) :
    Ends tree tables headers (tree.resolveFrom tables limit set pending).outcome := by
  induction limit generalizing depth set pending with
  | zero =>
      obtain rfl := hfrontier.pending_eq_nil (by omega)
      exact .complete hfrontier
  | succ limit ih =>
      cases pending with
      | nil => exact .complete hfrontier
      | cons first rest =>
          unfold resolveFrom
          cases hfailure : (tree.round tables (first :: rest)).failure with
          | none =>
              simp only [hfailure]
              exact ih (hfrontier.step hfailure) (by omega)
          | some failure =>
              obtain ⟨name, error⟩ := failure
              obtain ⟨hmem, hsearch⟩ := search_of_failure hfailure
              simp only [hfailure]
              refine .failed ((hfrontier.pending_iff name).mp hmem) hsearch ?_
              intro smaller hlt other hother
              exact hfrontier.search_of_mem
                ((hfrontier.located_iff other).mpr ⟨smaller, hlt, hother⟩)

/-- A limit that is not reached makes no difference. -/
theorem Frontier.resolveFrom_eq {limit more depth : Nat} {set : HeaderSet}
    {pending : List String} (hfrontier : Frontier tree tables headers depth set pending)
    (hlimit : tree.capacity < limit + depth) (hmore : limit ≤ more) :
    tree.resolveFrom tables more set pending = tree.resolveFrom tables limit set pending := by
  induction limit generalizing more depth set pending with
  | zero =>
      obtain rfl := hfrontier.pending_eq_nil (by omega)
      cases more <;> rfl
  | succ limit ih =>
      obtain ⟨more, rfl⟩ : ∃ less, more = less + 1 := ⟨more - 1, by omega⟩
      cases pending with
      | nil => rfl
      | cons first rest =>
          unfold resolveFrom
          cases hfailure : (tree.round tables (first :: rest)).failure with
          | none =>
              have hrounds : limit ≤ more := by omega
              have hlater := ih (hfrontier.step hfailure) (by omega) hrounds
              simp only [hfailure, hlater]
          | some failure => simp only [hfailure]

theorem resolveFrom_eq_resolve {limit : Nat} (hlimit : tree.capacity < limit) :
    tree.resolveFrom tables limit .empty headers = tree.resolve tables headers :=
  (Frontier.initial tree tables headers).resolveFrom_eq (by omega) (by omega)

theorem resolve_ends (tree : SourceTree) (tables : Tables) (headers : List String) :
    Ends tree tables headers (tree.resolve tables headers).outcome :=
  (Frontier.initial tree tables headers).ends (by omega)

theorem exists_frontier_of_resolve {set : HeaderSet}
    (hresolve : (tree.resolve tables headers).outcome = .ok set) :
    ∃ depth, Frontier tree tables headers depth set [] := by
  have hends := resolve_ends tree tables headers
  rw [hresolve] at hends
  obtain ⟨hfrontier⟩ := hends
  exact ⟨_, hfrontier⟩

end SourceTree

end Freestanding
