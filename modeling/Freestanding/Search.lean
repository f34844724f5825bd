import Freestanding.Event
import Freestanding.FileSystem.Access
import Freestanding.Include
import Freestanding.Tables

/-!
# Searching a source tree

A header is found below the root of a source tree as the first entry, in walking
order, whose location ends with the components of the header's name and that is
no directory.  A name may therefore carry directories, and a part of a file name
never matches.  Links below the root are candidates, but nothing behind them is,
and neither is anything in a directory whose path is too long.

`SourceTree.search` looks a header up under its substitute, if the tables hold
one, and reads which headers it includes.
-/

namespace Freestanding

def FileSystem.dependencies (files : FileSystem) (path : Path) : Except Fault (List String) :=
  (files.read path).map Freestanding.dependencies

/-- The tree below a path of a file system. -/
structure SourceTree where
  files : FileSystem
  root : Path

structure Located where
  location : Path
  includes : List String
  deriving DecidableEq

inductive SearchError
  | notFound (searchName : String) (root : Path)
  | unreadable (location : Path) (fault : Fault)
  deriving DecidableEq

def SearchError.message : SearchError → String
  | .notFound searchName root =>
    "Couldn't find any instance of " ++ searchName ++ " under " ++ root.text
  | .unreadable location _ => "Failed to read header " ++ location.text

def SearchError.cause? : SearchError → Option Fault
  | .notFound .. => none
  | .unreadable _ fault => some fault

/-- Whether a location ends with the components of a header's name. -/
def Location.endsWith (location : Location) (header : String) : Bool :=
  (Path.mk header).components.isSuffixOf (location.map fun name => .normal name.text)

namespace SourceTree

def locations (tree : SourceTree) : List Location :=
  (tree.files.descendants tree.root).map Prod.fst

def path (tree : SourceTree) (location : Location) : Path :=
  tree.root.join location.path

/-- Whether a walk comes to a location.  It cannot look into a directory whose
path is too long. -/
def reaches (tree : SourceTree) (location : Location) : Bool :=
  location.dropLast = [] || decide ((tree.path location.dropLast).text.utf8ByteSize ≤ pathLimit)

def isCandidate (tree : SourceTree) (header : String) (location : Location) : Bool :=
  location.endsWith header && ! tree.files.isDirectory (tree.path location) &&
    tree.reaches location

/-- The path of the first location that matches a header's name. -/
def find? (tree : SourceTree) (header : String) : Option Path :=
  (tree.locations.find? (tree.isCandidate header)).map tree.path

/-- Locates a header and reads what it includes. -/
def search (tree : SourceTree) (tables : Tables) (header : String) :
    Except SearchError Located :=
  match tree.find? (tables.searchName header) with
  | none => .error (.notFound (tables.searchName header) tree.root)
  | some location =>
    match tree.files.dependencies location with
    | .ok includes => .ok ⟨location, includes⟩
    | .error fault => .error (.unreadable location fault)

def substitution (tables : Tables) (header : String) : List Event :=
  match tables.substitute? header with
  | some searchName => [.substituted searchName header]
  | none => []

def discovery (tree : SourceTree) (tables : Tables) (header : String) (found : Located) :
    List Event :=
  .found (tables.searchName header) (found.location.parent?.getD tree.root) ::
    found.includes.map (.depends header)

def searchEvents (tree : SourceTree) (tables : Tables) (header : String) : List Event :=
  substitution tables header ++
    match tree.search tables header with
    | .ok found => tree.discovery tables header found
    | .error _ => []

end SourceTree

end Freestanding
