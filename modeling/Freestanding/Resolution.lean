import Freestanding.HeaderSet
import Freestanding.Search

/-!
# Resolution

A resolution finds the headers of a list and everything that they include.  It
works in rounds: each name that is pending is searched, in order and as often as
it is listed, and the names pending for the next round are those included by the
headers found, without the ones that the environment provides or that have a
location already.  The names that a resolution starts with are searched even if
they are provided.  The first search that fails ends it.

Every round but the first locates a name that had no location, and all of these
names are included by files of the source tree, so the rounds come to an end.
`SourceTree.capacity` bounds how many such names there are.
-/

namespace Freestanding

structure Round where
  /-- The headers found, in the order of the searches. -/
  found : List (String × Located)
  /-- The search that failed, which is then the last one. -/
  failure : Option (String × SearchError)

namespace Round

def searched (round : Round) : List String :=
  round.found.map Prod.fst ++ round.failure.toList.map Prod.fst

def located (round : Round) : List (String × Path) :=
  round.found.map fun entry => (entry.1, entry.2.location)

def discovered (round : Round) : List String :=
  round.found.flatMap fun entry => entry.2.includes

def events (round : Round) (tree : SourceTree) (tables : Tables) : List Event :=
  (round.found.flatMap fun entry =>
    SourceTree.substitution tables entry.1 ++ tree.discovery tables entry.1 entry.2) ++
    round.failure.toList.flatMap fun entry => SourceTree.substitution tables entry.1

end Round

structure Resolution where
  rounds : List Round
  outcome : Except SearchError HeaderSet

def Resolution.events (resolution : Resolution) (tree : SourceTree) (tables : Tables) :
    List Event :=
  resolution.rounds.flatMap (·.events tree tables)

/-- The names that a next round is to search. -/
def Tables.pending (tables : Tables) (set : HeaderSet) (discovered : List String) :
    List String :=
  discovered.filter fun name => name ∉ tables.provided && ! set.contains name

namespace SourceTree

/-- Searches names until one search fails. -/
def round (tree : SourceTree) (tables : Tables) : List String → Round
  | [] => ⟨[], none⟩
  | header :: rest =>
    match tree.search tables header with
    | .error error => ⟨[], some (header, error)⟩
    | .ok found =>
      let others := tree.round tables rest
      { others with found := (header, found) :: others.found }

/-- At most `limit` rounds, the first of which searches the pending names. -/
def resolveFrom (tree : SourceTree) (tables : Tables) :
    Nat → HeaderSet → List String → Resolution
  | _, set, [] => ⟨[], .ok set⟩
  | 0, set, _ :: _ => ⟨[], .ok set⟩
  | limit + 1, set, header :: rest =>
    let round := tree.round tables (header :: rest)
    match round.failure with
    | some (_, error) => ⟨[round], .error error⟩
    | none =>
      let set := set.insertMany round.located
      let later := tree.resolveFrom tables limit set (tables.pending set round.discovered)
      { later with rounds := round :: later.rounds }

/-- A bound on the number of names that files of the tree include.  A file has
no more lines than bytes and one. -/
def capacity (tree : SourceTree) : Nat :=
  tree.locations.foldr (fun location total =>
    match tree.files.read (tree.path location) with
    | .ok contents => contents.length + 1 + total
    | .error _ => total) 0

def resolve (tree : SourceTree) (tables : Tables) (headers : List String) : Resolution :=
  tree.resolveFrom tables (tree.capacity + 1) .empty headers

end SourceTree

end Freestanding
