import Freestanding.Proofs.NameOrder
import Freestanding.Proofs.ResolutionOutcome

/-!
# The names that a resolution reaches

A name is reached from a list when it is one of the list or the header found for
a reached name requires it.  A resolution of the list succeeds exactly if the
search of every reached name does.  Its header set then gives each reached name
the place where the search finds it, and holds no other name.

What is reached from two lists together is what is reached from either of them,
and nothing new is reached from names that are reached already.  So resolving
two lists together gives the union of the two header sets, and resolving the
names of a header set gives the set back.
-/

namespace Freestanding

namespace HeaderSet

theorem mem_entries_iff {set : HeaderSet} {entry : String × Path} :
    entry ∈ set.entries ↔ set.get? entry.1 = some entry.2 :=
  ⟨get?_of_mem_entries, mem_of_lookup⟩

theorem mem_names_iff {set : HeaderSet} {name : String} :
    name ∈ set.names ↔ ∃ location, set.get? name = some location := by
  rw [← contains_iff_mem_names, contains, Option.isSome_iff_exists]

theorem get?_eq_none_iff {set : HeaderSet} {name : String} :
    set.get? name = none ↔ name ∉ set.names := by
  rw [mem_names_iff, Option.eq_none_iff_forall_ne_some, not_exists]

/-- Two sets that answer every look-up alike are equal. -/
theorem eq_of_get?_eq {set other : HeaderSet} (hget : ∀ name, set.get? name = other.get? name) :
    set = other := by
  have hentries : set.entries = other.entries := by
    apply eq_of_pairwise_of_mem_iff (fun _ _ => String.lt_asymm) set.increasing other.increasing
    intro entry
    rw [mem_entries_iff, mem_entries_iff, hget]
  cases set
  cases other
  simpa using hentries

end HeaderSet

namespace SourceTree

inductive Reaches (tree : SourceTree) (tables : Tables) (headers : List String) : String → Prop
  | header {name : String} (hname : name ∈ headers) : Reaches tree tables headers name
  | required {name required : String} (hname : Reaches tree tables headers name)
      (hrequires : tree.Requires tables name required) : Reaches tree tables headers required

variable {tree : SourceTree} {tables : Tables} {headers others : List String} {name : String}
  {set other : HeaderSet}

theorem reaches_iff_exists_hasDepth :
    tree.Reaches tables headers name ↔ ∃ depth, tree.HasDepth tables headers depth name := by
  constructor
  · intro hreaches
    induction hreaches with
    | header hname => exact ⟨0, hasDepth_zero.mpr hname⟩
    | required _ hrequires ih =>
        obtain ⟨depth, hdepth⟩ := ih
        obtain ⟨next, -, hnext⟩ := hdepth.of_requires hrequires
        exact ⟨next, hnext⟩
  · rintro ⟨depth, hdepth⟩
    induction depth generalizing name with
    | zero => exact .header (hasDepth_zero.mp hdepth)
    | succ depth ih =>
        obtain ⟨-, parent, hparent, hrequires⟩ := hasDepth_succ.mp hdepth
        exact .required (ih hparent) hrequires

/-! ### Success -/

/-- Whether a header set holds the names reached from a list and no others, each
with the place where its search finds it. -/
structure LocatesReached (tree : SourceTree) (tables : Tables) (headers : List String)
    (set : HeaderSet) : Prop where
  reached : ∀ name ∈ set.names, tree.Reaches tables headers name
  located : ∀ name, tree.Reaches tables headers name →
    ∃ found, tree.search tables name = .ok found ∧ set.get? name = some found.location

theorem LocatesReached.mem_names_iff (hlocates : tree.LocatesReached tables headers set) :
    name ∈ set.names ↔ tree.Reaches tables headers name := by
  constructor
  · exact hlocates.reached name
  · intro hreaches
    obtain ⟨found, -, hget⟩ := hlocates.located name hreaches
    exact HeaderSet.mem_names_iff.mpr ⟨found.location, hget⟩

theorem LocatesReached.get?_eq_none_iff (hlocates : tree.LocatesReached tables headers set) :
    set.get? name = none ↔ ¬ tree.Reaches tables headers name := by
  rw [← hlocates.mem_names_iff, HeaderSet.get?_eq_none_iff]

/-- The sets of two lists have a name that is reached from both at one place. -/
theorem LocatesReached.get?_eq_of_reaches (hset : tree.LocatesReached tables headers set)
    (hother : tree.LocatesReached tables others other)
    (hheaders : tree.Reaches tables headers name) (hothers : tree.Reaches tables others name) :
    set.get? name = other.get? name := by
  obtain ⟨found, hsearch, hget⟩ := hset.located name hheaders
  obtain ⟨found', hsearch', hget'⟩ := hother.located name hothers
  rw [hsearch, Except.ok.injEq] at hsearch'
  rw [hget, hget', hsearch']

theorem LocatesReached.unique (hset : tree.LocatesReached tables headers set)
    (hother : tree.LocatesReached tables headers other) : set = other := by
  apply HeaderSet.eq_of_get?_eq
  intro name
  by_cases hreaches : tree.Reaches tables headers name
  · exact hset.get?_eq_of_reaches hother hreaches hreaches
  · rw [hset.get?_eq_none_iff.mpr hreaches, hother.get?_eq_none_iff.mpr hreaches]

theorem Frontier.locatesReached {depth : Nat}
    (hfrontier : Frontier tree tables headers depth set []) :
    tree.LocatesReached tables headers set := by
  constructor
  · intro name hname
    obtain ⟨smaller, -, hsmaller⟩ := (hfrontier.located_iff name).mp hname
    exact reaches_iff_exists_hasDepth.mpr ⟨smaller, hsmaller⟩
  · intro name hreaches
    obtain ⟨smaller, hsmaller⟩ := reaches_iff_exists_hasDepth.mp hreaches
    obtain ⟨location, hget⟩ := HeaderSet.mem_names_iff.mp (hfrontier.mem_of_hasDepth hsmaller)
    obtain ⟨found, hsearch, rfl⟩ := hfrontier.location name location hget
    exact ⟨found, hsearch, hget⟩

theorem exists_resolve_eq_ok_iff :
    (∃ set, (tree.resolve tables headers).outcome = .ok set) ↔
      ∀ name, tree.Reaches tables headers name →
        ∃ found, tree.search tables name = .ok found := by
  constructor
  · rintro ⟨set, hresolve⟩ name hreaches
    obtain ⟨_, hfrontier⟩ := exists_frontier_of_resolve hresolve
    obtain ⟨found, hsearch, -⟩ := hfrontier.locatesReached.located name hreaches
    exact ⟨found, hsearch⟩
  · intro hfound
    cases houtcome : (tree.resolve tables headers).outcome with
    | ok set => exact ⟨set, rfl⟩
    | error error =>
        have hends := resolve_ends tree tables headers
        rw [houtcome] at hends
        obtain _ | ⟨hdepth, hsearch, -⟩ := hends
        obtain ⟨found, hok⟩ := hfound _ (reaches_iff_exists_hasDepth.mpr ⟨_, hdepth⟩)
        rw [hsearch] at hok
        contradiction

/-- What a resolution answers with when it succeeds. -/
theorem resolve_eq_ok_iff :
    (tree.resolve tables headers).outcome = .ok set ↔
      tree.LocatesReached tables headers set := by
  constructor
  · intro hresolve
    obtain ⟨_, hfrontier⟩ := exists_frontier_of_resolve hresolve
    exact hfrontier.locatesReached
  · intro hlocates
    have hfound : ∀ name, tree.Reaches tables headers name →
        ∃ found, tree.search tables name = .ok found := by
      intro name hreaches
      obtain ⟨found, hsearch, -⟩ := hlocates.located name hreaches
      exact ⟨found, hsearch⟩
    obtain ⟨answer, hresolve⟩ := exists_resolve_eq_ok_iff.mpr hfound
    obtain ⟨_, hfrontier⟩ := exists_frontier_of_resolve hresolve
    rw [hresolve, hfrontier.locatesReached.unique hlocates]

theorem reaches_iff_of_requires_iff {again : SourceTree}
    (hrequires : ∀ name, tree.Reaches tables headers name → ∀ required,
      again.Requires tables name required ↔ tree.Requires tables name required) :
    again.Reaches tables headers name ↔ tree.Reaches tables headers name := by
  constructor
  · intro hreaches
    induction hreaches with
    | header hname => exact .header hname
    | required _ hagain ih => exact .required ih ((hrequires _ ih _).mp hagain)
  · intro hreaches
    induction hreaches with
    | header hname => exact .header hname
    | required hname hown ih => exact .required ih ((hrequires _ hname _).mpr hown)

/-- Where the searches of located names come to the same, so does the resolution. -/
theorem LocatesReached.of_search_eq {again : SourceTree}
    (hlocates : tree.LocatesReached tables headers set)
    (hsearch : ∀ name found, set.get? name = some found.location →
      tree.search tables name = .ok found → again.search tables name = .ok found) :
    again.LocatesReached tables headers set := by
  have hagain : ∀ name, tree.Reaches tables headers name → ∃ found,
      tree.search tables name = .ok found ∧ set.get? name = some found.location ∧
        again.search tables name = .ok found := by
    intro name hreaches
    obtain ⟨found, hfound, hget⟩ := hlocates.located name hreaches
    exact ⟨found, hfound, hget, hsearch name found hget hfound⟩
  have hreaches : ∀ name, again.Reaches tables headers name ↔
      tree.Reaches tables headers name := by
    intro name
    apply reaches_iff_of_requires_iff
    intro parent hparent required
    obtain ⟨found, hfound, -, hfoundAgain⟩ := hagain parent hparent
    rw [Requires, Requires, hfound, hfoundAgain]
  constructor
  · intro name hname
    exact (hreaches name).mpr (hlocates.reached name hname)
  · intro name hname
    obtain ⟨found, -, hget, hfoundAgain⟩ := hagain name ((hreaches name).mp hname)
    exact ⟨found, hfoundAgain, hget⟩

/-! ### Lists of names put together -/

theorem Reaches.of_forall_reaches
    (hheaders : ∀ header ∈ headers, tree.Reaches tables others header)
    (hreaches : tree.Reaches tables headers name) : tree.Reaches tables others name := by
  induction hreaches with
  | header hname => exact hheaders _ hname
  | required _ hrequires ih => exact .required ih hrequires

theorem Reaches.mono (hsubset : headers ⊆ others) (hreaches : tree.Reaches tables headers name) :
    tree.Reaches tables others name :=
  hreaches.of_forall_reaches fun _ hheader => .header (hsubset hheader)

theorem reaches_append_iff :
    tree.Reaches tables (headers ++ others) name ↔
      tree.Reaches tables headers name ∨ tree.Reaches tables others name := by
  constructor
  · intro hreaches
    induction hreaches with
    | header hname => exact (List.mem_append.mp hname).imp .header .header
    | required _ hrequires ih =>
        exact ih.imp (fun hname => .required hname hrequires)
          (fun hname => .required hname hrequires)
  · rintro (hreaches | hreaches)
    · exact hreaches.mono (List.subset_append_left _ _)
    · exact hreaches.mono (List.subset_append_right _ _)

theorem reaches_congr (hsame : ∀ header, header ∈ headers ↔ header ∈ others) :
    tree.Reaches tables headers name ↔ tree.Reaches tables others name :=
  ⟨Reaches.mono fun header => (hsame header).mp, Reaches.mono fun header => (hsame header).mpr⟩

theorem LocatesReached.congr
    (hsame : ∀ name, tree.Reaches tables headers name ↔ tree.Reaches tables others name)
    (hlocates : tree.LocatesReached tables headers set) :
    tree.LocatesReached tables others set where
  reached name hname := (hsame name).mp (hlocates.reached name hname)
  located name hreaches := hlocates.located name ((hsame name).mpr hreaches)

theorem LocatesReached.reaches_names_iff (hlocates : tree.LocatesReached tables headers set) :
    tree.Reaches tables set.names name ↔ tree.Reaches tables headers name :=
  ⟨Reaches.of_forall_reaches hlocates.reached,
    fun hreaches => .header (hlocates.mem_names_iff.mpr hreaches)⟩

theorem LocatesReached.get?_append {union : HeaderSet}
    (hunion : tree.LocatesReached tables (headers ++ others) union)
    (hset : tree.LocatesReached tables headers set)
    (hother : tree.LocatesReached tables others other) (name : String) :
    union.get? name = (set.get? name).or (other.get? name) := by
  by_cases hheaders : tree.Reaches tables headers name
  · obtain ⟨location, hget⟩ := HeaderSet.mem_names_iff.mp (hset.mem_names_iff.mpr hheaders)
    rw [hunion.get?_eq_of_reaches hset (reaches_append_iff.mpr (.inl hheaders)) hheaders, hget,
      Option.some_or]
  · rw [hset.get?_eq_none_iff.mpr hheaders, Option.none_or]
    by_cases hothers : tree.Reaches tables others name
    · exact hunion.get?_eq_of_reaches hother (reaches_append_iff.mpr (.inr hothers)) hothers
    · have hneither : ¬ tree.Reaches tables (headers ++ others) name :=
        fun hreaches => (reaches_append_iff.mp hreaches).elim hheaders hothers
      rw [hunion.get?_eq_none_iff.mpr hneither, hother.get?_eq_none_iff.mpr hothers]

/-- Resolving is a closure operator.  A resolved set has the names that it was
resolved for, and its names are resolved to the set itself.  Two lists together are
resolved exactly if both of them are, and then to the union of the two sets, which
agree on the names that they share, so that more names give a larger set.  The
order of the names and repeated names make no difference. -/
theorem resolve_isClosureOperator (tree : SourceTree) (tables : Tables)
    (headers others : List String) :
    ((∃ union, (tree.resolve tables (headers ++ others)).outcome = .ok union) ↔
        (∃ set, (tree.resolve tables headers).outcome = .ok set) ∧
          ∃ other, (tree.resolve tables others).outcome = .ok other) ∧
      (∀ union set other, (tree.resolve tables (headers ++ others)).outcome = .ok union →
        (tree.resolve tables headers).outcome = .ok set →
          (tree.resolve tables others).outcome = .ok other →
            (∀ name, union.get? name = (set.get? name).or (other.get? name)) ∧
              ∀ name ∈ set.names, name ∈ other.names → set.get? name = other.get? name) ∧
      ((∀ name, name ∈ headers ↔ name ∈ others) →
        ∀ set, (tree.resolve tables headers).outcome = .ok set ↔
          (tree.resolve tables others).outcome = .ok set) ∧
      ∀ set, (tree.resolve tables headers).outcome = .ok set →
        (∀ name ∈ headers, name ∈ set.names) ∧
          (tree.resolve tables set.names).outcome = .ok set := by
  refine ⟨?_, ?_, ?_, ?_⟩
  · simp only [exists_resolve_eq_ok_iff, reaches_append_iff, or_imp, forall_and]
  · intro union set other hunion hset hother
    rw [resolve_eq_ok_iff] at hunion hset hother
    constructor
    · exact hunion.get?_append hset hother
    · intro name hname hshared
      exact hset.get?_eq_of_reaches hother (hset.reached name hname) (hother.reached name hshared)
  · intro hsame set
    rw [resolve_eq_ok_iff, resolve_eq_ok_iff]
    exact ⟨.congr fun _ => reaches_congr hsame, .congr fun _ => (reaches_congr hsame).symm⟩
  · intro set hresolve
    rw [resolve_eq_ok_iff] at hresolve ⊢
    constructor
    · intro name hname
      exact hresolve.mem_names_iff.mpr (.header hname)
    · exact hresolve.congr fun _ => hresolve.reaches_names_iff.symm

end SourceTree

end Freestanding
