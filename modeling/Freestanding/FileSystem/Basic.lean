import Freestanding.FileSystem.Fault
import Freestanding.FileSystem.Walk

/-!
# File systems and the meaning of paths

A file system is a tree with a current directory.  A path of a permitted length
is followed segment by segment, each of which needs a directory to start from.
A link is replaced by the segments of its target, at most `linkLimit` times;
`..` leads to the directory above the one reached.  What becomes of the last
segment depends on the purpose for which the path is followed.

`Trail.advance` and `Trail.follow` carry the entries passed along.  Those of a
trail that begins at the root are the tree's own, which `Trail.IsSound` says.
-/

namespace Freestanding

/-- A tree of files and a directory in which relative paths start. -/
structure FileSystem where
  root : Node
  current : Location
  distinct : root.Distinct

def linkLimit : Nat := 40

def pathLimit : Nat := 4095

/-- Refuses a text that is not taken for a path. -/
def Path.check (path : Path) : Except Fault Unit :=
  if '\x00' ∈ path.text.toList then .error .nulInPath
  else if pathLimit < path.text.utf8ByteSize then .error .nameTooLong
  else if path.text = "" then .error .missing
  else .ok ()

inductive Purpose
  /-- To reach something that exists, through links. -/
  | reach
  /-- To open a file for writing, through links; it is made if it is missing. -/
  | write
  /-- To make or remove the entry itself, even if it is a link. -/
  | entry
  deriving DecidableEq

inductive Place
  | occupied (location : Location)
  /-- A name in a directory that has no such entry. -/
  | vacant (location : Location)
  deriving DecidableEq

/-- The way from the root of a tree to one of its nodes. -/
structure Trail where
  root : Node
  /-- The entries passed, the latest first. -/
  passed : List (Name × Node)

namespace Trail

def start (root : Node) : Trail := ⟨root, []⟩

def node (trail : Trail) : Node :=
  match trail.passed with
  | [] => trail.root
  | (_, node) :: _ => node

def location (trail : Trail) : Location :=
  (trail.passed.map Prod.fst).reverse

/-- The trail to the directory above.  There is nothing above the root. -/
def up (trail : Trail) : Trail :=
  { trail with passed := trail.passed.tail }

def enter? (trail : Trail) (name : Name) : Option Trail :=
  (trail.node.child? name).map fun node => { trail with passed := (name, node) :: trail.passed }

def to? (root : Node) (location : Location) : Option Trail :=
  location.foldlM enter? (start root)

/-- Follows segments.  At a link, `follow` goes on from the directory of the link
with its target and the segments behind it. -/
def advance (purpose : Purpose) (follow : Trail → Path → List Segment → Except Fault Place) :
    Trail → List Segment → Except Fault Place
  | trail, [] => .ok (.occupied trail.location)
  | trail, segment :: rest =>
    if trail.node.isDirectory then
      match segment with
      | .blank => trail.advance purpose follow rest
      | .here => trail.advance purpose follow rest
      | .up => trail.up.advance purpose follow rest
      | .named text =>
        let isLast := rest.all (· = .blank)
        if purpose = .write ∧ isLast ∧ rest ≠ [] then .error .isDirectory
        else if nameLimit < text.utf8ByteSize then .error .nameTooLong
        else match Name.ofText? text with
          | none => .error .missing
          | some name =>
            match trail.enter? name with
            | none =>
              if isLast ∧ purpose ≠ .reach then .ok (.vacant (trail.location ++ [name]))
              else .error .missing
            | some inner =>
              if isLast ∧ purpose = .entry then .ok (.occupied inner.location)
              else match inner.node with
                | .link target => follow trail target rest
                | _ => inner.advance purpose follow rest
    else .error .notDirectory

def follow (purpose : Purpose) : Nat → Trail → List Segment → Except Fault Place
  | 0, trail, segments => trail.advance purpose (fun _ _ _ => .error .tooManyLinks) segments
  | links + 1, trail, segments =>
    trail.advance purpose (fun above target rest =>
      if target.text = "" then .error .missing
      else (if target.isAbsolute then start above.root else above).follow purpose links
        (target.segments ++ rest)) segments

/-- Whether the entries passed are those of the tree: every node on the trail is
the one at its location. -/
def IsSound (trail : Trail) : Prop :=
  ∀ passed, passed <:+ trail.passed →
    trail.root.get? (mk trail.root passed).location = some (mk trail.root passed).node

theorem IsSound.get?_location {trail : Trail} (hsound : trail.IsSound) :
    trail.root.get? trail.location = some trail.node :=
  hsound trail.passed (List.suffix_refl _)

theorem isSound_start (root : Node) : (start root).IsSound := by
  intro passed hpassed
  obtain rfl := List.suffix_nil.mp hpassed
  rfl

theorem IsSound.up {trail : Trail} (hsound : trail.IsSound) : trail.up.IsSound :=
  fun passed hpassed => hsound passed (hpassed.trans (List.tail_suffix _))

theorem IsSound.enter? {trail inner : Trail} {name : Name} (hsound : trail.IsSound)
    (henter : trail.enter? name = some inner) : inner.IsSound := by
  obtain ⟨node, hchild, rfl⟩ := Option.map_eq_some_iff.mp henter
  intro passed hpassed
  rcases List.suffix_cons_iff.mp hpassed with rfl | hpassed
  · have hlocation := hsound.get?_location
    simp only [location] at hlocation
    simp only [location, List.map_cons, List.reverse_cons, Node.get?_append_singleton, hlocation]
    exact hchild
  · exact hsound passed hpassed

end Trail

def Node.isDirectoryAt (root : Node) (location : Location) : Bool :=
  (root.get? location).any Node.isDirectory

namespace FileSystem

def empty : FileSystem where
  root := .directory []
  current := []
  distinct := .directory_nil

def resolve (files : FileSystem) (purpose : Purpose) (path : Path) : Except Fault Place := do
  path.check
  match Trail.to? files.root (if path.isAbsolute then [] else files.current) with
  | none => .error .missing
  | some trail => trail.follow purpose linkLimit path.segments

def locate (files : FileSystem) (path : Path) : Except Fault Location :=
  match files.resolve .reach path with
  | .ok (.occupied location) => .ok location
  | .ok (.vacant _) => .error .missing
  | .error fault => .error fault

/-- The node at a path, through links. -/
def node? (files : FileSystem) (path : Path) : Option Node :=
  match files.locate path with
  | .ok location => files.root.get? location
  | .error _ => none

def isDirectory (files : FileSystem) (path : Path) : Bool :=
  (files.node? path).any Node.isDirectory

def descendants (files : FileSystem) (path : Path) : List (Location × Node) :=
  match files.node? path with
  | some node => node.descendants
  | none => []

def put (files : FileSystem) (location : Location) (node : Node) (hnode : node.Distinct) :
    FileSystem :=
  { files with root := node.put location files.root, distinct := hnode.put files.distinct }

end FileSystem

end Freestanding
