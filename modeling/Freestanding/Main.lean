import Freestanding.Program

/-!
# The program on the disk

The program runs on a copy of the part of the disk that it can see: the way to
both operands, the source tree, and what is installed already.  What the run
changed is written back.  A link becomes a link to the place where it ends.
-/

namespace Freestanding

/-- The file system with another one in its place if an operation succeeds. -/
def FileSystem.attempt (files : FileSystem) (operation : Except Fault FileSystem) : FileSystem :=
  operation.toOption.getD files

/-- Adds the directories on the way to a path, and the path itself if it is one. -/
def FileSystem.withDirectories (files : FileSystem) (path : String) : FileSystem :=
  (files.makeDirectories ⟨path⟩).1

/-- The files and directories that differ between two trees, or are only in the
second one; a directory comes before what is in it. -/
def changes (before after : Node) : List (Location × Node) :=
  after.descendants.filter fun (location, node) =>
    match node, before.get? location with
    | .file contents, some (.file old) => contents ≠ old
    | .directory _, some (.directory _) => false
    | _, _ => true

/-- Adds the file or the empty directory at a place that no link is on the way to. -/
def addPlace (files : FileSystem) (place : String) : IO FileSystem := do
  let place ← IO.FS.realPath place
  if ← place.isDir then return files.withDirectories place.toString
  let path : Path := ⟨place.toString⟩
  let files := path.parent?.elim files fun parent => files.withDirectories parent.text
  return files.attempt (files.write path (← IO.FS.readBinFile place).toList)

/-- Adds a link, and what it leads to unless it dangles. -/
def addLink (files : FileSystem) (path : String) : IO FileSystem := do
  let place := (← IO.currentDir) / path
  if ← place.pathExists then
    let target := (← IO.FS.realPath place).toString
    addPlace (files.attempt (files.makeLink ⟨path⟩ ⟨target⟩)) target
  else return files.attempt (files.makeLink ⟨path⟩ ⟨place.toString ++ ".missing"⟩)

partial def addEntry (files : FileSystem) (entry : IO.FS.DirEntry) : IO FileSystem := do
  let path := entry.path.toString
  match (← entry.path.symlinkMetadata).type with
  | .dir => (← entry.path.readDir).foldlM addEntry (files.withDirectories path)
  | .symlink => addLink files path
  | _ => return files.attempt (files.write ⟨path⟩ (← IO.FS.readBinFile path).toList)

def addWay (files : FileSystem) (path : Path) : IO FileSystem := do
  let current ← IO.currentDir
  (path :: path.parents).reverse.foldlM (fun files step => do
    let place := current / step.text
    match ← place.symlinkMetadata.toBaseIO with
    | .ok metadata =>
      if metadata.type matches .symlink then addLink files step.text
      else addPlace files place.toString
    | .error _ => return files) files

def addTree (files : FileSystem) (path : Path) : IO FileSystem := do
  let files ← addWay files path
  let place := (← IO.currentDir) / path.text
  if ← place.isDir then
    (← (← IO.FS.realPath place).readDir).foldlM addEntry files
  else return files

/-- The part of the disk that an invocation can see. -/
def visibleFiles : Invocation → IO FileSystem
  | .extract destination sourceRoot => do
    let current := (← IO.currentDir).toString
    let files := FileSystem.empty.withDirectories current
    let files := files.attempt (files.enter ⟨current⟩)
    addTree (← addTree files sourceRoot) (destination.join ⟨installDirectory⟩)
  | _ => return .empty

def writeBack (changed : List (Location × Node)) : IO Unit :=
  changed.forM fun (location, node) =>
    let path := "/" ++ location.path.text
    match node with
    | .directory _ => IO.FS.createDirAll path
    | .file contents => IO.FS.writeBinFile path ⟨contents.toArray⟩
    | .link _ => return

end Freestanding

open Freestanding in
def main (arguments : List String) : IO UInt32 := do
  let verbosity := Verbosity.ofSetting (← IO.getEnv "RUST_LOG")
  let files ← match Invocation.ofArguments arguments with
    | .ok invocation => visibleFiles invocation
    | .error _ => pure .empty
  let report := files.run verbosity arguments
  writeBack (changes files.root report.files.root)
  IO.print report.output
  IO.eprint report.errors
  return report.status.toUInt32
