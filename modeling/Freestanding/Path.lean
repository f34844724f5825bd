import Freestanding.Text.Pieces

/-!
# Paths

A path is its text; two texts may lead to the same place.  Cutting the text at
its slashes gives the segments, one for each step of following the path in a
file system.  The components are what is left when blank segments and `.` are
dropped, except a `.` at the very beginning: two paths with the same components
name the same thing.

`Path.join` puts a path below another.  `Path.parents` are the paths of the
directories above a path, as texts, the nearest first.
-/

namespace Freestanding

structure Path where
  text : String
  deriving DecidableEq

/-- A piece of a path's text between slashes. -/
inductive Segment
  | blank
  | here
  | up
  | named (name : String)
  deriving DecidableEq

/-- A part of a path that counts when paths are compared. -/
inductive Component
  /-- The slash in front of an absolute path. -/
  | root
  /-- A `.` in front of a relative path. -/
  | current
  | parent
  | normal (name : String)
  deriving DecidableEq

def Segment.ofPiece (piece : List Char) : Segment :=
  if piece = [] then .blank
  else if piece = ['.'] then .here
  else if piece = ['.', '.'] then .up
  else .named (String.ofList piece)

/-- The component that a segment stands for behind the beginning of a path. -/
def Segment.component? : Segment → Option Component
  | .blank | .here => none
  | .up => some .parent
  | .named name => some (.normal name)

namespace Path

def isAbsolute (path : Path) : Bool :=
  path.text.toList.head? = some '/'

def pieces (path : Path) : List (List Char) :=
  Freestanding.pieces '/' path.text.toList

def segments (path : Path) : List Segment :=
  path.pieces.map Segment.ofPiece

def components (path : Path) : List Component :=
  if path.isAbsolute then .root :: path.segments.filterMap Segment.component?
  else match path.segments with
    | .here :: segments => .current :: segments.filterMap Segment.component?
    | segments => segments.filterMap Segment.component?

def ofPieces (pieces : List (List Char)) : Path :=
  ⟨String.ofList (['/'].intercalate pieces)⟩

def ofNames (names : List String) : Path :=
  ⟨"/".intercalate names⟩

theorem ofNames_eq_ofPieces (names : List String) :
    ofNames names = ofPieces (names.map String.toList) := by
  rw [ofNames, ofPieces, mk.injEq, ← String.toList_inj]
  simp [String.toList_intercalate]

/-- A path below another one.  An absolute path stays where it is. -/
def join (path below : Path) : Path :=
  if below.isAbsolute then below
  else if path.text.toList.getLast?.all (· = '/') then ⟨path.text ++ below.text⟩
  else ⟨path.text ++ "/" ++ below.text⟩

/-- A piece that is no component behind the beginning of a path. -/
def isFiller (piece : List Char) : Bool :=
  piece = [] || piece = ['.']

/-- The path of a beginning and of the pieces kept behind it.  The slash of an
absolute path is also kept when nothing follows it. -/
def ofKept (beginning kept : List (List Char)) : Path :=
  if beginning = [[]] ∧ kept = [] then ⟨"/"⟩ else ofPieces (beginning ++ kept)

/-- The parents of a path with the given beginning and, in reverse, the pieces
behind it.  A parent ends with a component. -/
def parentsBehind (beginning : List (List Char)) : List (List Char) → List Path
  | [] => if beginning = [['.']] then [⟨""⟩] else []
  | piece :: above =>
    if isFiller piece then parentsBehind beginning above
    else ofKept beginning (above.dropWhile isFiller).reverse :: parentsBehind beginning above

/-- The paths of the directories above a path, the nearest first.  The last one
of a relative path is empty. -/
def parents (path : Path) : List Path :=
  match path.pieces with
  | [] :: piece :: rest => parentsBehind [[]] (piece :: rest).reverse
  | ['.'] :: rest => parentsBehind [['.']] rest.reverse
  | rest => parentsBehind [] rest.reverse

def parent? (path : Path) : Option Path :=
  path.parents.head?

end Path

end Freestanding
