import Freestanding.Proofs.Frontier
import Freestanding.Proofs.NameOrder
import Mathlib.Order.Bounds.Basic

/-!
# The outcome of a resolution

A resolution that succeeds answers with the least set of names that holds the
ones it starts with and whatever its headers require, each with the place where
a search finds it.  A resolution fails exactly when the search of a name that it
reaches fails, and then with the error of such a search: one of the smallest
depth at which a search fails.
-/

namespace Freestanding

namespace SourceTree

variable {tree : SourceTree} {tables : Tables} {headers : List String}

/-! ### Success -/

/-- Whether a set of names holds the given ones and, with each of its names that
a header set locates, everything that the file there includes and the
environment does not provide. -/
structure IsClosed (tree : SourceTree) (tables : Tables) (headers : List String)
    (set : HeaderSet) (names : Set String) : Prop where
  headers : ∀ name ∈ headers, name ∈ names
  included : ∀ name ∈ names, ∀ location, set.get? name = some location →
    ∀ includes, tree.files.dependencies location = .ok includes →
      ∀ required ∈ includes, required ∉ tables.provided → required ∈ names

section Complete

variable {depth : Nat} {set : HeaderSet}

/-- When nothing is pending, every name of any depth is located. -/
theorem Frontier.mem_of_hasDepth
    (hfrontier : Frontier tree tables headers depth set []) {other : Nat} {name : String}
    (hother : tree.HasDepth tables headers other name) : name ∈ set.names := by
  induction other generalizing name with
  | zero =>
      rcases Nat.eq_zero_or_pos depth with rfl | hpos
      · exact absurd ((hfrontier.pending_iff name).mpr hother) List.not_mem_nil
      · exact (hfrontier.located_iff name).mpr ⟨0, hpos, hother⟩
  | succ other ih =>
      obtain ⟨-, parent, hparent, hrequires⟩ := hasDepth_succ.mp hother
      obtain ⟨smaller, hlt, hsmaller⟩ := (hfrontier.located_iff parent).mp (ih hparent)
      obtain ⟨next, hle, hnext⟩ := hsmaller.of_requires hrequires
      rcases Nat.lt_succ_iff_lt_or_eq.mp (show next < depth + 1 by omega) with hlt | rfl
      · exact (hfrontier.located_iff name).mpr ⟨next, hlt, hnext⟩
      · exact absurd ((hfrontier.pending_iff name).mpr hnext) List.not_mem_nil

theorem Frontier.isClosed_names
    (hfrontier : Frontier tree tables headers depth set []) :
    tree.IsClosed tables headers set {name | name ∈ set.names} := by
  constructor
  · intro name hname
    exact hfrontier.mem_of_hasDepth (hasDepth_zero.mpr hname)
  · intro name hname location hget includes hincludes required hmem hprovided
    obtain ⟨found, hsearch, rfl⟩ := hfrontier.location name location hget
    obtain ⟨smaller, -, hsmaller⟩ := (hfrontier.located_iff name).mp hname
    have hsame : found.includes = includes := by
      rw [(search_eq_ok hsearch).2, Except.ok.injEq] at hincludes
      exact hincludes
    subst hsame
    obtain ⟨next, -, hnext⟩ :=
      hsmaller.of_requires ⟨found, hsearch, hmem, hprovided⟩
    exact hfrontier.mem_of_hasDepth hnext

/-- A located name is in every closed set, by induction on its depth. -/
theorem Frontier.mem_of_isClosed
    (hfrontier : Frontier tree tables headers depth set []) {names : Set String}
    (hclosed : tree.IsClosed tables headers set names) {other : Nat} {name : String}
    (hother : tree.HasDepth tables headers other name) : name ∈ names := by
  induction other generalizing name with
  | zero => exact hclosed.headers name (hasDepth_zero.mp hother)
  | succ other ih =>
      obtain ⟨-, parent, hparent, found, hsearch, hmem, hprovided⟩ :=
        hasDepth_succ.mp hother
      have hcontains :=
        (set.contains_iff_mem_names parent).mpr (hfrontier.mem_of_hasDepth hparent)
      obtain ⟨location, hget⟩ := Option.isSome_iff_exists.mp hcontains
      obtain ⟨located, hlocated, rfl⟩ := hfrontier.location parent location hget
      rw [hsearch, Except.ok.injEq] at hlocated
      subst hlocated
      exact hclosed.included parent (ih hparent) found.location hget found.includes
        (search_eq_ok hsearch).2 name hmem hprovided

end Complete

/-- The alias of the first pair with a name counts, and it is not looked up
again. -/
theorem searchName_eq_find? (tables : Tables) (name : String) :
    tables.searchName name =
      ((tables.aliases.find? (·.1 = name)).map Prod.snd).getD name := by
  have hlookup : tables.aliases.lookup name =
      (tables.aliases.find? (·.1 = name)).map Prod.snd := by
    induction tables.aliases with
    | nil => rfl
    | cons pair rest ih =>
        obtain ⟨other, substitute⟩ := pair
        by_cases hsame : name = other
        · simp [hsame]
        · rw [lookup_cons_of_ne hsame, ih,
            List.find?_cons_of_neg (by simpa using Ne.symm hsame)]
  rw [Tables.searchName, Tables.substitute?, hlookup]

/-- The names of a resolution that succeeds are the least set that holds the
given names and, with each name, what the file located for it includes and the
environment does not provide.  Each name lies where its substitute is found, and
the names come in the strict order of their bytes. -/
theorem resolve_names_isLeast {set : HeaderSet}
    (hresolve : (tree.resolve tables headers).outcome = .ok set) :
    IsLeast {names | tree.IsClosed tables headers set names} {name | name ∈ set.names} ∧
      (∀ name ∈ set.names,
        set.get? name =
          tree.find? (((tables.aliases.find? (·.1 = name)).map Prod.snd).getD name)) ∧
      (∀ name ∈ set.names, ∃ location includes,
        set.get? name = some location ∧
          tree.files.dependencies location = .ok includes) ∧
      (set.names.map Utf8.encode).Pairwise (· < ·) := by
  have hends := resolve_ends tree tables headers
  rw [hresolve] at hends
  obtain ⟨hfrontier⟩ := hends
  have hlocated : ∀ name ∈ set.names, ∃ found,
      set.get? name = some found.location ∧ tree.search tables name = .ok found := by
    intro name hname
    have hcontains := (set.contains_iff_mem_names name).mpr hname
    obtain ⟨location, hget⟩ := Option.isSome_iff_exists.mp hcontains
    obtain ⟨found, hsearch, rfl⟩ := hfrontier.location name location hget
    exact ⟨found, hget, hsearch⟩
  refine ⟨⟨hfrontier.isClosed_names, ?_⟩, ?_, ?_, ?_⟩
  · intro names hclosed name hname
    obtain ⟨smaller, -, hsmaller⟩ := (hfrontier.located_iff name).mp hname
    exact hfrontier.mem_of_isClosed hclosed hsmaller
  · intro name hname
    obtain ⟨found, hget, hsearch⟩ := hlocated name hname
    rw [hget, ← searchName_eq_find?, (search_eq_ok hsearch).1]
  · intro name hname
    obtain ⟨found, hget, hsearch⟩ := hlocated name hname
    exact ⟨found.location, found.includes, hget, (search_eq_ok hsearch).2⟩
  · rw [HeaderSet.names, List.map_map, List.pairwise_map]
    exact set.increasing.imp Utf8.encode_lt_encode

/-- Two headers that include each other, one of them under another name. -/
def mutualTree : SourceTree where
  files := {
    root := .directory
      [(⟨"a", by decide⟩, .file (Utf8.encode "#include <b>\n#include <stdint.h>\n")),
        (⟨"c", by decide⟩, .file (Utf8.encode "#include <a>\n"))]
    current := []
    distinct := by
      refine .directory (by decide) ?_
      simp only [List.mem_cons, List.not_mem_nil, or_false]
      rintro entry (rfl | rfl) <;> exact .file
  }
  root := ⟨"/"⟩

def mutualTables : Tables where
  aliases := [("b", "c"), ("b", "a")]
  provided := ["stdint.h"]

def mutualSet : HeaderSet :=
  .insertMany .empty [("a", ⟨"/a"⟩), ("b", ⟨"/c"⟩)]

theorem resolve_names_isLeast_mutual :
    (mutualTree.resolve mutualTables ["a"]).outcome = .ok mutualSet ∧
      IsLeast {names | mutualTree.IsClosed mutualTables ["a"] mutualSet names}
        {name | name ∈ mutualSet.names} :=
  ⟨rfl, (resolve_names_isLeast rfl).1⟩

/-! ### Failure -/

/-- A search fails because nothing matches, or because the match cannot be
read. -/
theorem search_eq_error {name : String} {error : SearchError}
    (hsearch : tree.search tables name = .error error) :
    (tree.find? (tables.searchName name) = none ∧
        error = .notFound (tables.searchName name) tree.root) ∨
      ∃ location fault, tree.find? (tables.searchName name) = some location ∧
        tree.files.dependencies location = .error fault ∧
        error = .unreadable location fault := by
  unfold search at hsearch
  split at hsearch
  next hfind =>
    simp only [Except.error.injEq] at hsearch
    exact .inl ⟨hfind, hsearch.symm⟩
  next location hfind =>
    split at hsearch
    next => simp at hsearch
    next fault hincludes =>
      simp only [Except.error.injEq] at hsearch
      exact .inr ⟨location, fault, hfind, hincludes, hsearch.symm⟩

/-- A resolution fails exactly when the search of a name of some depth fails.
Its error is that of such a search, no search of a name of smaller depth fails,
and the error names what was searched for and where, or the match that cannot be
read. -/
theorem resolve_fails_iff_search_fails (tree : SourceTree) (tables : Tables)
    (headers : List String) :
    ((∃ error, (tree.resolve tables headers).outcome = .error error) ↔
        ∃ depth name error, tree.HasDepth tables headers depth name ∧
          tree.search tables name = .error error) ∧
      ∀ error, (tree.resolve tables headers).outcome = .error error →
        ∃ depth name, tree.HasDepth tables headers depth name ∧
          tree.search tables name = .error error ∧
          (∀ smaller < depth, ∀ other, tree.HasDepth tables headers smaller other →
            ∃ found, tree.search tables other = .ok found) ∧
          ((tree.find? (tables.searchName name) = none ∧
              error = .notFound (tables.searchName name) tree.root) ∨
            ∃ location fault, tree.find? (tables.searchName name) = some location ∧
              tree.files.dependencies location = .error fault ∧
              error = .unreadable location fault) := by
  have hends := resolve_ends tree tables headers
  cases houtcome : (tree.resolve tables headers).outcome with
  | ok set =>
      rw [houtcome] at hends
      obtain ⟨hfrontier⟩ := hends
      refine ⟨⟨?_, ?_⟩, ?_⟩
      · rintro ⟨error, herror⟩
        simp at herror
      · rintro ⟨depth, name, error, hdepth, hsearch⟩
        obtain ⟨found, hfound⟩ :=
          hfrontier.search_of_mem (hfrontier.mem_of_hasDepth hdepth)
        rw [hsearch] at hfound
        simp at hfound
      · intro error herror
        simp at herror
  | error error =>
      rw [houtcome] at hends
      obtain _ | ⟨hdepth, hsearch, hsmaller⟩ := hends
      refine ⟨⟨fun _ => ⟨_, _, _, hdepth, hsearch⟩, fun _ => ⟨error, rfl⟩⟩, ?_⟩
      intro other hother
      simp only [Except.error.injEq] at hother
      subst hother
      exact ⟨_, _, hdepth, hsearch, hsmaller, search_eq_error hsearch⟩

end SourceTree

end Freestanding
