import Freestanding.Extraction
import Freestanding.Proofs.InstallationRun

/-!
# The requests of an installation

What an installation asks of the file system does not depend on what it finds
there.  The header set and the directory alone give a list of requests, and the
installation performs them in order until one is refused.  So what holds of all
requests holds of everything that an installation does, whether it succeeds or
not.
-/

namespace Freestanding

/-- A request to make the directories of a path, or to fill a file from
another. -/
inductive Request
  | create (directory : Path)
  | configure (source destination : Path)
  | copy (source destination : Path)

namespace Request

/-- The path at which something is made or written. -/
def destination : Request → Path
  | .create directory => directory
  | .configure _ destination => destination
  | .copy _ destination => destination

def perform (files : FileSystem) : Request → FileSystem × Except InstallError Unit
  | .create directory =>
    match files.makeDirectories directory with
    | (made, .ok ()) => (made, .ok ())
    | (made, .error fault) => (made, .error (.create directory fault))
  | .configure source destination => files.installConfigured source destination
  | .copy source destination => files.installVerbatim source destination

/-- A request makes directories, fills the file at its destination or changes
nothing. -/
theorem perform_cases (files : FileSystem) (request : Request) :
    (∃ directory, request = .create directory ∧
        (request.perform files).1 = (files.makeDirectories directory).1) ∨
      (request.perform files).1 = files ∨
      ∃ target contents, (request.perform files).1.locate request.destination = .ok target ∧
        files.Stores (request.perform files).1 target contents := by
  cases request with
  | create directory =>
      refine .inl ⟨directory, rfl, ?_⟩
      unfold perform
      dsimp only
      split
      next made hmade => rw [hmade]
      next made fault hmade => rw [hmade]
  | configure source destination =>
      unfold perform
      dsimp only [Request.destination]
      cases hinstall : files.installConfigured source destination with
      | mk after outcome =>
          cases outcome with
          | error => exact .inr (.inl (FileSystem.eq_of_refused_installConfigured hinstall))
          | ok =>
              obtain ⟨_, target, contents, -, -, hlocate, hstores⟩ :=
                FileSystem.installConfigured_spec hinstall
              exact .inr (.inr ⟨target, _, hlocate, hstores⟩)
  | copy source destination =>
      unfold perform
      dsimp only [Request.destination]
      cases hinstall : files.installVerbatim source destination with
      | mk after outcome =>
          cases outcome with
          | error => exact .inr (.inl (FileSystem.eq_of_refused_installVerbatim hinstall))
          | ok =>
              obtain ⟨_, target, contents, -, -, -, hlocate, hstores⟩ :=
                FileSystem.copy_spec (FileSystem.copy_of_installVerbatim hinstall)
              exact .inr (.inr ⟨target, _, hlocate, hstores⟩)

/-- Performs requests until one is refused. -/
def performEach (files : FileSystem) : List Request → FileSystem × Except InstallError Unit
  | [] => (files, .ok ())
  | request :: rest =>
    match request.perform files with
    | (changed, .ok ()) => performEach changed rest
    | (changed, .error error) => (changed, .error error)

theorem performEach_append (files : FileSystem) (earlier later : List Request) :
    performEach files (earlier ++ later) =
      match performEach files earlier with
      | (changed, .ok ()) => performEach changed later
      | (changed, .error error) => (changed, .error error) := by
  induction earlier generalizing files with
  | nil => rfl
  | cons request rest ih =>
      rw [List.cons_append, performEach, performEach]
      cases request.perform files with
      | mk changed outcome =>
          cases outcome with
          | ok => exact ih changed
          | error => rfl

end Request

/-- The requests that install a header. -/
def headerRequests (root : Path) (entry : String × Path) : List Request :=
  (root.join ⟨entry.1⟩).parent?.toList.map .create ++
    [if entry.1 = configHeader then .configure entry.2 (root.join ⟨entry.1⟩)
      else .copy entry.2 (root.join ⟨entry.1⟩)]

theorem Request.destination_of_mem_headerRequests {root : Path} {entry : String × Path}
    {request : Request} (hrequest : request ∈ headerRequests root entry) :
    request.destination = root.join ⟨entry.1⟩ ∨
      (root.join ⟨entry.1⟩).parent? = some request.destination := by
  rw [headerRequests, List.mem_append, List.mem_map, List.mem_singleton] at hrequest
  rcases hrequest with ⟨parent, hparent, rfl⟩ | rfl
  · exact .inr (Option.mem_toList.mp hparent)
  · left
    split <;> rfl

def installRequests (set : HeaderSet) (path : Path) : List Request :=
  .create (path.join ⟨installDirectory⟩) ::
    set.entries.flatMap (headerRequests (path.join ⟨installDirectory⟩))

namespace FileSystem

variable (files : FileSystem)

/-- The requests of an extraction.  There are none if a search fails. -/
def extractRequests (path root : Path) : List Request :=
  match ((SourceTree.mk files root).resolve .standard freestandingHeaders).outcome with
  | .ok set => installRequests set path
  | .error _ => []

theorem makeParents_eq_performEach (path : Path) :
    files.makeParents path = Request.performEach files (path.parent?.toList.map .create) := by
  unfold makeParents
  cases path.parent? with
  | none => rfl
  | some directory =>
      simp only [Option.toList_some, List.map_cons, List.map_nil, Request.performEach,
        Request.perform]
      cases files.makeDirectories directory with
      | mk made outcome => cases outcome <;> rfl

theorem installHeader_eq_performEach (root : Path) (name : String) (source : Path) :
    ((files.installHeader root name source).1,
        (files.installHeader root name source).2.map fun _ => ()) =
      Request.performEach files (headerRequests root (name, source)) := by
  rw [headerRequests, Request.performEach_append, ← makeParents_eq_performEach]
  cases hinstall : files.installHeader root name source with
  | mk after outcome =>
      rcases installHeader_cases hinstall with
        ⟨error, hmade, rfl⟩ | ⟨made, filled, hmade, rfl, hfill⟩
      · rw [hmade]
        rfl
      · rw [hmade]
        rcases hfill with ⟨hconfig, hfill⟩ | ⟨hconfig, hfill⟩
        · simp only [if_pos hconfig, Request.performEach, Request.perform, hfill]
          cases filled <;> rfl
        · simp only [if_neg hconfig, Request.performEach, Request.perform, hfill]
          cases filled <;> rfl

theorem installEach_eq_performEach (root : Path) (entries : List (String × Path)) :
    ((files.installEach root entries).files, (files.installEach root entries).outcome) =
      Request.performEach files (entries.flatMap (headerRequests root)) := by
  induction entries generalizing files with
  | nil => rfl
  | cons entry rest ih =>
      obtain ⟨name, source⟩ := entry
      rw [List.flatMap_cons, Request.performEach_append, ← installHeader_eq_performEach]
      unfold installEach
      cases files.installHeader root name source with
      | mk changed outcome =>
          cases outcome with
          | error => rfl
          | ok => exact ih changed

/-- An installation performs its requests. -/
theorem install_eq_performEach (set : HeaderSet) (path : Path) :
    ((files.install set path).files, (files.install set path).outcome) =
      Request.performEach files (installRequests set path) := by
  rw [installRequests, Request.performEach, Request.perform]
  unfold install
  dsimp only
  cases files.makeDirectories (path.join ⟨installDirectory⟩) with
  | mk made outcome =>
      cases outcome with
      | error => rfl
      | ok => exact made.installEach_eq_performEach (path.join ⟨installDirectory⟩) set.entries

theorem files_extract_eq_performEach (path root : Path) :
    (files.extract path root).files =
      (Request.performEach files (files.extractRequests path root)).1 := by
  unfold extractRequests extract
  dsimp only
  cases ((SourceTree.mk files root).resolve .standard freestandingHeaders).outcome with
  | error => rfl
  | ok set => exact congrArg Prod.fst (files.install_eq_performEach set path)

end FileSystem

end Freestanding
