import Freestanding.FileSystem.Basic

/-!
# Reading and changing files

Writing and copying are done in steps.  Opening a file for writing makes it if it
is missing and empties it; only then is it filled.  Each step starts from what the
one before has left, and a refusal keeps what was done so far.  Making directories
is the same: those that were made stay when a later one is refused.
-/

namespace Freestanding.FileSystem

def read (files : FileSystem) (path : Path) : Except Fault (List UInt8) := do
  match files.root.get? (← files.locate path) with
  | some (.file contents) => return contents
  | some (.directory _) => throw .isDirectory
  | _ => throw .missing

/-- The location at which a file is written: that of the file at the path, or of
a new one. -/
def writable (files : FileSystem) (path : Path) : Except Fault Location := do
  match ← files.resolve .write path with
  | .vacant location => return location
  | .occupied location =>
    if files.root.isDirectoryAt location then throw .isDirectory else return location

/-- Opens a file for writing: it is made if it is missing, and emptied. -/
def openEmptied (files : FileSystem) (path : Path) : FileSystem × Except Fault Location :=
  match files.writable path with
  | .ok location => (files.put location (.file []) .file, .ok location)
  | .error fault => (files, .error fault)

/-- Fills a file that has been opened. -/
def fill (files : FileSystem) (location : Location) (contents : List UInt8) : FileSystem :=
  files.put location (.file contents) .file

def store (files : FileSystem) (path : Path) (contents : List UInt8) :
    FileSystem × Except Fault Unit :=
  match files.openEmptied path with
  | (opened, .ok target) => (opened.fill target contents, .ok ())
  | (opened, .error fault) => (opened, .error fault)

/-- The file system with a file stored, unless that is refused. -/
def write (files : FileSystem) (path : Path) (contents : List UInt8) :
    Except Fault FileSystem :=
  let (stored, outcome) := files.store path contents
  outcome.map fun _ => stored

/-- Opens a regular file for reading. -/
def openRegular (files : FileSystem) (path : Path) : Except Fault Location := do
  let location ← files.locate path
  match files.root.get? location with
  | some (.file _) => return location
  | _ => throw .notRegular

/-- What a file that has been opened holds by now. -/
def held (files : FileSystem) (location : Location) : List UInt8 :=
  match files.root.get? location with
  | some (.file contents) => contents
  | _ => []

/-- Copies a regular file.  The destination is opened, and so emptied, before
anything is read, so a file that is copied onto itself is empty afterwards. -/
def copy (files : FileSystem) (source destination : Path) : FileSystem × Except Fault Unit :=
  match files.openRegular source with
  | .error fault => (files, .error fault)
  | .ok origin =>
    match files.openEmptied destination with
    | (opened, .error fault) => (opened, .error fault)
    | (opened, .ok target) => (opened.fill target (opened.held origin), .ok ())

def makeDirectory (files : FileSystem) (path : Path) : Except Fault FileSystem := do
  match ← files.resolve .entry path with
  | .vacant location => return files.put location (.directory []) .directory_nil
  | .occupied _ => throw .alreadyExists

/-- Makes the first of the given paths a directory, after the others if its own
directory is missing.  The others are its parents, the nearest first. -/
def makeWithParents (files : FileSystem) : List Path → FileSystem × Except Fault Unit
  | [] => (files, .error .missing)
  | path :: parents =>
    if path.text = "" then (files, .ok ())
    else match files.makeDirectory path with
      | .ok made => (made, .ok ())
      | .error .missing =>
        match files.makeWithParents parents with
        | (above, .error fault) => (above, .error fault)
        | (above, .ok ()) =>
          match above.makeDirectory path with
          | .ok made => (made, .ok ())
          | .error fault => (above, if above.isDirectory path then .ok () else .error fault)
      | .error fault => (files, if files.isDirectory path then .ok () else .error fault)

/-- Makes a directory and the missing ones above it.  One that is there already
is fine. -/
def makeDirectories (files : FileSystem) (path : Path) : FileSystem × Except Fault Unit :=
  files.makeWithParents (path :: path.parents)

def makeLink (files : FileSystem) (path target : Path) : Except Fault FileSystem := do
  target.check
  match ← files.resolve .entry path with
  | .vacant location => return files.put location (.link target) .link
  | .occupied _ => throw .alreadyExists

/-- Removes a file, a link itself, or a directory with everything in it. -/
def remove (files : FileSystem) (path : Path) : Except Fault FileSystem := do
  match ← files.resolve .entry path with
  | .vacant _ => throw .missing
  | .occupied location =>
    return { files with
      root := files.root.erase location
      distinct := files.distinct.erase }

def enter (files : FileSystem) (path : Path) : Except Fault FileSystem := do
  let location ← files.locate path
  if files.root.isDirectoryAt location then return { files with current := location }
  else throw .notDirectory

end Freestanding.FileSystem
