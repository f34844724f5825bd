import Freestanding.Proofs.InstallationRequests
import Freestanding.Proofs.InterruptedInstallation

/-!
# The log of an installation

An installation reports each header right after its file has been filled, and
nothing else while it fills files.  So its events tell how far it has come: they
name the headers of an initial part of the set, which are those whose files were
filled, and a closing event follows exactly if the installation succeeds.

A set without headers is the exception to reading success off the reported
headers.  All of them are reported even if the directory cannot be made.
-/

namespace Freestanding

/-- What a log shows of an event. -/
def Event.record (event : Event) : Level × String :=
  (event.level, event.message)

/-! ### Requests that are completed -/

namespace Request

/-- The requests that are performed before one is refused. -/
def completed (files : FileSystem) : List Request → List Request
  | [] => []
  | request :: rest =>
    match request.perform files with
    | (changed, .ok ()) => request :: completed changed rest
    | (_, .error _) => []

/-- The event that reports a request.  It is not reported that directories are
made. -/
def event? : Request → Option Event
  | .create _ => none
  | .configure source destination => some (.patched source destination)
  | .copy source destination => some (.copied source destination)

variable {files : FileSystem}

theorem completed_append (files : FileSystem) (earlier later : List Request) :
    completed files (earlier ++ later) =
      match performEach files earlier with
      | (changed, .ok ()) => earlier ++ completed changed later
      | (_, .error _) => completed files earlier := by
  induction earlier generalizing files with
  | nil => rfl
  | cons request rest ih =>
      rw [List.cons_append, completed, performEach, completed]
      cases request.perform files with
      | mk changed outcome =>
          cases outcome with
          | error => rfl
          | ok =>
              dsimp only
              rw [ih]
              cases performEach changed rest with
              | mk final result => cases result <;> rfl

theorem completed_isPrefix (files : FileSystem) (requests : List Request) :
    completed files requests <+: requests := by
  induction requests generalizing files with
  | nil => exact List.prefix_rfl
  | cons request rest ih =>
      rw [completed]
      cases request.perform files with
      | mk changed outcome =>
          cases outcome with
          | error => exact List.nil_prefix
          | ok => exact (List.prefix_cons_inj request).mpr (ih changed)

/-- All requests are completed exactly if none is refused. -/
theorem completed_eq_self_iff {requests : List Request} :
    completed files requests = requests ↔ (performEach files requests).2 = .ok () := by
  induction requests generalizing files with
  | nil => simp [completed, performEach]
  | cons request rest ih =>
      rw [completed, performEach]
      cases request.perform files with
      | mk changed outcome =>
          cases outcome with
          | error => simp
          | ok => simpa using ih

theorem filterMap_event?_eq_nil {requests : List Request} {directories : List Path}
    (hcreates : requests <+: directories.map .create) : requests.filterMap event? = [] := by
  rw [List.filterMap_eq_nil_iff]
  intro request hrequest
  obtain ⟨directory, -, rfl⟩ := List.mem_map.mp (hcreates.mem hrequest)
  rfl

end Request

/-! ### Headers that are reported -/

theorem record_headerEvent (root : Path) (entry : String × Path) :
    (headerEvent root entry).record =
      (.debug, (if entry.1 = configHeader then "patched " else "copied ") ++ entry.2.text ++
        " -> " ++ (root.join ⟨entry.1⟩).text) := by
  unfold headerEvent
  split_ifs <;> rfl

theorem filterMap_event?_headerRequests (root : Path) (entry : String × Path) :
    (headerRequests root entry).filterMap Request.event? = [headerEvent root entry] := by
  rw [headerRequests, List.filterMap_append,
    Request.filterMap_event?_eq_nil List.prefix_rfl, headerEvent]
  split_ifs <;> rfl

namespace FileSystem

variable {files changed : FileSystem} {root path : Path} {set : HeaderSet}

/-- A header that is refused has not been filled. -/
theorem filterMap_event?_completed_of_refused {entry : String × Path} {error : InstallError}
    (hrefused : files.installHeader root entry.1 entry.2 = (changed, .error error)) :
    (Request.completed files (headerRequests root entry)).filterMap Request.event? = [] := by
  have houtcome := congrArg Prod.snd (files.installHeader_eq_performEach root entry.1 entry.2)
  rw [hrefused] at houtcome
  have hnot : Request.completed files (headerRequests root entry) ≠ headerRequests root entry := by
    rw [ne_eq, Request.completed_eq_self_iff, ← houtcome]
    simp [Except.map]
  have hbefore := Request.completed_isPrefix files (headerRequests root entry)
  rw [headerRequests] at hnot hbefore ⊢
  exact Request.filterMap_event?_eq_nil ((List.prefix_concat_iff.mp hbefore).resolve_left hnot)

/-- The headers that are reported are the first ones.  Their files are those that
are filled, and they are all headers exactly if none is refused. -/
theorem exists_reported_of_installEach (files : FileSystem) (root : Path)
    (entries : List (String × Path)) :
    ∃ reported unreported, entries = reported ++ unreported ∧
      (files.installEach root entries).events = reported.map (headerEvent root) ∧
      (Request.completed files (entries.flatMap (headerRequests root))).filterMap
        Request.event? = reported.map (headerEvent root) ∧
      files.InstallsEach (files.installEach root entries).files root reported ∧
      ((files.installEach root entries).outcome = .ok () ↔ unreported = []) := by
  induction entries generalizing files with
  | nil =>
      have hinstalls := (AddsDirectories.refl files).installsEach root
      exact ⟨[], [], rfl, rfl, rfl, hinstalls, fun _ => rfl, fun _ => rfl⟩
  | cons entry rest ih =>
      have hperform := files.installHeader_eq_performEach root entry.1 entry.2
      rw [List.flatMap_cons, Request.completed_append, ← hperform]
      cases hfirst : files.installHeader root entry.1 entry.2 with
      | mk changed outcome =>
          cases outcome with
          | error error =>
              rw [installEach_cons_of_error hfirst]
              have hnone := filterMap_event?_completed_of_refused hfirst
              refine ⟨[], entry :: rest, rfl, rfl, hnone, ?_, by simp⟩
              exact (addsDirectories_of_installHeader hfirst).installsEach root
          | ok event =>
              obtain ⟨reported, unreported, rfl, hevents, hfilled, hinstalls, hall⟩ := ih changed
              rw [installEach_cons_of_ok hfirst]
              refine ⟨entry :: reported, unreported, rfl, ?_, ?_, ?_, hall⟩
              · rw [hevents, event_of_installHeader hfirst]
                rfl
              · simp only [Except.map, List.filterMap_append, hfilled,
                  filterMap_event?_headerRequests]
                rfl
              · exact (installHeader_spec hfirst).append hinstalls

/-! ### The whole log -/

/-- The event that closes the log of an installation. -/
def closing (set : HeaderSet) : Except InstallError Unit → List Event
  | .ok () => [.installed set.size]
  | .error _ => []

theorem events_install_of_makeDirectories {made : FileSystem}
    (hmake : files.makeDirectories (path.join ⟨installDirectory⟩) = (made, .ok ()))
    (set : HeaderSet) :
    (files.install set path).events =
      .installing (path.join ⟨installDirectory⟩) ::
        ((made.installEach (path.join ⟨installDirectory⟩) set.entries).events ++
          closing set (files.install set path).outcome) := by
  simp only [install, hmake, List.cons_append]
  cases (made.installEach (path.join ⟨installDirectory⟩) set.entries).outcome <;> rfl

theorem filter_closing (set : HeaderSet) (outcome : Except InstallError Unit) :
    (closing set outcome).filter (·.level = .debug) = [] := by
  cases outcome <;> rfl

theorem filter_map_headerEvent (root : Path) (entries : List (String × Path)) :
    (entries.map (headerEvent root)).filter (·.level = .debug) =
      entries.map (headerEvent root) := by
  rw [List.filter_eq_self]
  intro event hevent
  obtain ⟨entry, -, rfl⟩ := List.mem_map.mp hevent
  exact decide_eq_true (congrArg Prod.fst (record_headerEvent root entry))

/-- Whether the log of an installation tells what it did: it names the directory
and then the headers that are reported, each with its source and its destination.
Theirs are the files that were filled, and no other file has changed. -/
structure AccountsFor (files : FileSystem) (set : HeaderSet) (path : Path)
    (reported : List (String × Path)) : Prop where
  isPrefix : reported <+: set.entries
  records : (files.install set path).events.map Event.record =
    (.info, "Installing C++ freestanding headers to " ++ (path.join ⟨installDirectory⟩).text) ::
      ((reported.map fun entry =>
        (.debug, (if entry.1 = configHeader then "patched " else "copied ") ++ entry.2.text ++
          " -> " ++ ((path.join ⟨installDirectory⟩).join ⟨entry.1⟩).text)) ++
      match (files.install set path).outcome with
      | .ok () => [(.info, "Installed " ++ toString set.size ++ " headers")]
      | .error _ => [])
  filled : (files.install set path).events.filter (·.level = .debug) =
    (Request.completed files (installRequests set path)).filterMap Request.event?
  installs : files.InstallsEach (files.install set path).files
    (path.join ⟨installDirectory⟩) reported
  complete_iff : (files.install set path).outcome = .ok () ↔
    reported = set.entries ∧
      (set.entries = [] → (files.makeDirectories (path.join ⟨installDirectory⟩)).2 = .ok ())

theorem accountsFor_of_refused {made : FileSystem} {fault : Fault}
    (hmake : files.makeDirectories (path.join ⟨installDirectory⟩) = (made, .error fault))
    (set : HeaderSet) : files.AccountsFor set path [] := by
  have hadds := addsDirectories_makeDirectories files (path.join ⟨installDirectory⟩)
  rw [hmake] at hadds
  have hinstall : files.install set path =
      ⟨made, [.installing (path.join ⟨installDirectory⟩)],
        .error (.create (path.join ⟨installDirectory⟩) fault)⟩ := by
    simp only [install, hmake]
  have hnone : Request.completed files (installRequests set path) = [] := by
    simp only [installRequests, Request.completed, Request.perform, hmake]
  constructor
  · exact List.nil_prefix
  · rw [hinstall]
    rfl
  · rw [hinstall, hnone]
    rfl
  · rw [hinstall]
    exact hadds.installsEach _
  · rw [hinstall, hmake]
    simp [eq_comm]

theorem exists_accountsFor_of_made {made : FileSystem}
    (hmake : files.makeDirectories (path.join ⟨installDirectory⟩) = (made, .ok ()))
    (set : HeaderSet) : ∃ reported, files.AccountsFor set path reported := by
  have hadds := addsDirectories_makeDirectories files (path.join ⟨installDirectory⟩)
  rw [hmake] at hadds
  obtain ⟨reported, unreported, hentries, hevents, hfilled, hinstalls, hall⟩ :=
    exists_reported_of_installEach made (path.join ⟨installDirectory⟩) set.entries
  obtain ⟨hfiles, houtcome⟩ := install_eq_of_makeDirectories hmake set
  have hlog := events_install_of_makeDirectories hmake set
  rw [hevents] at hlog
  refine ⟨reported, ?_, ?_, ?_, ?_, ?_⟩
  · exact hentries ▸ List.prefix_append reported unreported
  · rw [hlog, List.map_cons, List.map_append, List.map_map]
    congr 2
    · exact List.map_congr_left fun entry _ => record_headerEvent _ entry
    · cases (files.install set path).outcome <;> rfl
  · have hcompleted :
        (Request.completed files (installRequests set path)).filterMap Request.event? =
          reported.map (headerEvent (path.join ⟨installDirectory⟩)) := by
      simp only [installRequests, Request.completed, Request.perform, hmake]
      exact hfilled
    have hquiet : ¬ (Event.installing (path.join ⟨installDirectory⟩)).level = .debug := by
      simp [Event.level]
    rw [hlog, hcompleted, List.filter_cons_of_neg (by simpa using hquiet), List.filter_append,
      filter_map_headerEvent, filter_closing, List.append_nil]
  · rw [hfiles]
    exact (hadds.installsEach _).append hinstalls
  · rw [houtcome, hall]
    simp [hentries, hmake]

/-- The log of an installation, whether it succeeds or not, names its directory
and then the headers of an initial part of the set in the order of their bytes,
and closes with the number of all headers exactly if the installation succeeds.
The headers that it names are those whose files were filled.  The installation
succeeds exactly if it names all headers, except that a set without headers needs
the directory to be made. -/
theorem install_isAccounted (files : FileSystem) (set : HeaderSet) (path : Path) :
    (set.names.map Utf8.encode).Pairwise (· < ·) ∧
      ∃ reported, files.AccountsFor set path reported := by
  constructor
  · rw [HeaderSet.names, List.map_map, List.pairwise_map]
    exact set.increasing.imp Utf8.encode_lt_encode
  · cases hmake : files.makeDirectories (path.join ⟨installDirectory⟩) with
    | mk made outcome =>
        cases outcome with
        | error fault => exact ⟨[], accountsFor_of_refused hmake set⟩
        | ok => exact exists_accountsFor_of_made hmake set

/-- A file where the directory of an installation is to be made. -/
def blockedFiles : FileSystem where
  root := .directory [(⟨"taken", by decide⟩, .file [])]
  current := []
  distinct := .directory (by decide) (List.forall_mem_singleton.mpr .file)

/-- The log names all headers of an empty set, but the installation fails. -/
theorem install_accounts_for_nothing :
    (∀ entry ∈ HeaderSet.empty.entries,
        headerEvent ⟨"taken/include/c++"⟩ entry ∈ (blockedFiles.install .empty ⟨"taken"⟩).events) ∧
      (blockedFiles.install .empty ⟨"taken"⟩).events = [.installing ⟨"taken/include/c++"⟩] ∧
      (blockedFiles.install .empty ⟨"taken"⟩).outcome =
        .error (.create ⟨"taken/include/c++"⟩ .notDirectory) := by
  decide +kernel

end FileSystem

end Freestanding
