import Freestanding.Installation
import Freestanding.Resolution

/-!
# Extraction

The freestanding headers of a source tree, with everything that they include,
are resolved and then installed.
-/

namespace Freestanding

inductive ExtractionError
  | search (error : SearchError)
  | install (error : InstallError)
  deriving DecidableEq

def ExtractionError.message : ExtractionError → String
  | .search error => error.message
  | .install error => error.message

def ExtractionError.cause? : ExtractionError → Option Fault
  | .search error => error.cause?
  | .install error => some error.cause

/-- What an extraction did; when it succeeds, how many headers it installed. -/
structure Extraction where
  files : FileSystem
  events : List Event
  outcome : Except ExtractionError Nat

/-- Resolves the freestanding headers below a root and installs them below a
path. -/
def FileSystem.extract (files : FileSystem) (path root : Path) : Extraction :=
  let tree : SourceTree := ⟨files, root⟩
  let resolution := tree.resolve .standard freestandingHeaders
  let searches := resolution.events tree .standard
  match resolution.outcome with
  | .error error => ⟨files, searches, .error (.search error)⟩
  | .ok set =>
    let installation := files.install set path
    { files := installation.files
      events := searches ++ installation.events
      outcome :=
        match installation.outcome with
        | .error error => .error (.install error)
        | .ok () => .ok set.size }

end Freestanding
