import Freestanding.Event
import Freestanding.FileSystem.Access
import Freestanding.HeaderSet
import Freestanding.Setting
import Freestanding.Tables

/-!
# Installation

A header set is installed below a directory under the names of its headers, in
their order.  The configuration header gets its settings on the way; every other
header is copied as it is.  The first refusal ends the installation, and what
was done before it stays.
-/

namespace Freestanding

inductive InstallError
  | create (directory : Path) (fault : Fault)
  | read (source : Path) (fault : Fault)
  | write (destination : Path) (fault : Fault)
  | copy (source destination : Path) (fault : Fault)
  deriving DecidableEq

def InstallError.message : InstallError → String
  | .create directory _ => "Failed to create " ++ directory.text
  | .read source _ => "Failed to read " ++ source.text
  | .write destination _ => "Failed to write " ++ destination.text
  | .copy source destination _ => "Failed to copy " ++ source.text ++ " to " ++ destination.text

def InstallError.cause : InstallError → Fault
  | .create _ fault | .read _ fault | .write _ fault | .copy _ _ fault => fault

structure Installation where
  files : FileSystem
  events : List Event
  outcome : Except InstallError Unit

namespace FileSystem

/-- Makes the directories on the way to a path, but not the path itself. -/
def makeParents (files : FileSystem) (path : Path) : FileSystem × Except InstallError Unit :=
  match path.parent? with
  | none => (files, .ok ())
  | some directory =>
    match files.makeDirectories directory with
    | (made, .ok ()) => (made, .ok ())
    | (made, .error fault) => (made, .error (.create directory fault))

def installConfigured (files : FileSystem) (source destination : Path) :
    FileSystem × Except InstallError Unit :=
  match files.read source with
  | .error fault => (files, .error (.read source fault))
  | .ok contents =>
    match files.store destination (configure contents) with
    | (stored, .ok ()) => (stored, .ok ())
    | (stored, .error fault) => (stored, .error (.write destination fault))

def installVerbatim (files : FileSystem) (source destination : Path) :
    FileSystem × Except InstallError Unit :=
  match files.copy source destination with
  | (copied, .ok ()) => (copied, .ok ())
  | (copied, .error fault) => (copied, .error (.copy source destination fault))

def installHeader (files : FileSystem) (root : Path) (name : String) (source : Path) :
    FileSystem × Except InstallError Event :=
  let destination := root.join ⟨name⟩
  match files.makeParents destination with
  | (made, .error error) => (made, .error error)
  | (made, .ok ()) =>
    if name = configHeader then
      match made.installConfigured source destination with
      | (written, .ok ()) => (written, .ok (.patched source destination))
      | (written, .error error) => (written, .error error)
    else
      match made.installVerbatim source destination with
      | (written, .ok ()) => (written, .ok (.copied source destination))
      | (written, .error error) => (written, .error error)

def installEach (files : FileSystem) (root : Path) : List (String × Path) → Installation
  | [] => ⟨files, [], .ok ()⟩
  | (name, source) :: rest =>
    match files.installHeader root name source with
    | (changed, .error error) => ⟨changed, [], .error error⟩
    | (changed, .ok event) =>
      let later := changed.installEach root rest
      { later with events := event :: later.events }

/-- Installs a header set below the install directory of a path. -/
def install (files : FileSystem) (set : HeaderSet) (path : Path) : Installation :=
  let root := path.join ⟨installDirectory⟩
  match files.makeDirectories root with
  | (made, .error fault) => ⟨made, [.installing root], .error (.create root fault)⟩
  | (made, .ok ()) =>
    let each := made.installEach root set.entries
    { each with
      events := .installing root :: each.events ++
        match each.outcome with
        | .ok () => [.installed set.size]
        | .error _ => [] }

end FileSystem

end Freestanding
