import Freestanding.Proofs.InstallationRun
import Freestanding.Proofs.NameOrder

/-!
# Installations that are interrupted

Every step of the installation of a header that can be refused comes before the
file of the header is emptied.  A header whose installation is refused leaves
therefore nothing behind but directories, and an installation that fails has done
what the same installation of the headers before the refused one does.
-/

namespace Freestanding

/-- The headers of a set whose names come before a name in the order of their
bytes. -/
def HeaderSet.before (set : HeaderSet) (name : String) : HeaderSet where
  entries := set.entries.filter fun entry => Utf8.encode entry.1 < Utf8.encode name
  increasing := List.Pairwise.sublist List.filter_sublist set.increasing

theorem HeaderSet.entries_before {set : HeaderSet} {earlier later : List (String × Path)}
    {entry : String × Path} (hentries : set.entries = earlier ++ entry :: later) :
    (set.before entry.1).entries = earlier := by
  have hincreasing := set.increasing
  rw [NamesIncrease, hentries, List.pairwise_append] at hincreasing
  have hearlier : ∀ other ∈ earlier, Utf8.encode other.1 < Utf8.encode entry.1 :=
    fun other hother =>
      Utf8.encode_lt_encode (hincreasing.2.2 other hother entry List.mem_cons_self)
  have hlater : ∀ other ∈ entry :: later, ¬ Utf8.encode other.1 < Utf8.encode entry.1 := by
    intro other hother
    rcases List.mem_cons.mp hother with rfl | hother
    · exact List.lt_irrefl _
    · have hbehind := (List.pairwise_cons.mp hincreasing.2.1).1 other hother
      exact List.lt_asymm (Utf8.encode_lt_encode hbehind)
  have hkept : earlier.filter (fun other => Utf8.encode other.1 < Utf8.encode entry.1) =
      earlier :=
    List.filter_eq_self.mpr fun other hother => decide_eq_true (hearlier other hother)
  have hdropped :
      (entry :: later).filter (fun other => Utf8.encode other.1 < Utf8.encode entry.1) = [] :=
    List.filter_eq_nil_iff.mpr fun other hother hless =>
      hlater other hother (of_decide_eq_true hless)
  calc
    (set.before entry.1).entries
      = (earlier ++ entry :: later).filter
          (fun other => Utf8.encode other.1 < Utf8.encode entry.1) := by
          rw [← hentries]
          rfl
    _ = earlier := by rw [List.filter_append, hkept, hdropped, List.append_nil]

namespace FileSystem

variable {files after : FileSystem} {root path : Path} {set : HeaderSet} {error : InstallError}

/-- A header whose installation is refused leaves nothing behind but
directories: the refusal came before its file was emptied. -/
theorem addsDirectories_of_installHeader {name : String} {source : Path}
    (hrefused : files.installHeader root name source = (after, .error error)) :
    files.AddsDirectories after := by
  have hparents := addsDirectories_makeParents files (root.join ⟨name⟩)
  rcases installHeader_cases hrefused with
    ⟨_, hmade, -⟩ | ⟨made, filled, hmade, houtcome, hfill⟩
  · rwa [hmade] at hparents
  · rw [hmade] at hparents
    cases filled with
    | ok => cases houtcome
    | error =>
        rcases hfill with ⟨-, hfill⟩ | ⟨-, hfill⟩
        · rwa [eq_of_refused_installConfigured hfill]
        · rwa [eq_of_refused_installVerbatim hfill]

theorem installEach_cons_of_error {changed : FileSystem} {entry : String × Path}
    (hfirst : files.installHeader root entry.1 entry.2 = (changed, .error error))
    (rest : List (String × Path)) :
    files.installEach root (entry :: rest) = ⟨changed, [], .error error⟩ := by
  conv_lhs => unfold installEach
  simp only [hfirst]

theorem installEach_cons_of_ok {changed : FileSystem} {entry : String × Path} {event : Event}
    (hfirst : files.installHeader root entry.1 entry.2 = (changed, .ok event))
    (rest : List (String × Path)) :
    files.installEach root (entry :: rest) =
      { changed.installEach root rest with
        events := event :: (changed.installEach root rest).events } := by
  conv_lhs => unfold installEach
  simp only [hfirst]

/-- When headers cannot all be installed, the ones before some header are, and
that header is refused. -/
theorem exists_refused_of_installEach {entries : List (String × Path)}
    (hrun : (files.installEach root entries).outcome = .error error) :
    ∃ earlier entry later, entries = earlier ++ entry :: later ∧
      (files.installEach root earlier).outcome = .ok () ∧
      (files.installEach root earlier).files.installHeader root entry.1 entry.2 =
        ((files.installEach root entries).files, .error error) := by
  induction entries generalizing files with
  | nil => cases hrun
  | cons entry rest ih =>
      cases hfirst : files.installHeader root entry.1 entry.2 with
      | mk changed outcome =>
          cases outcome with
          | error failure =>
              rw [installEach_cons_of_error hfirst] at hrun ⊢
              obtain rfl : failure = error := Except.error.inj hrun
              exact ⟨[], entry, rest, rfl, rfl, hfirst⟩
          | ok event =>
              rw [installEach_cons_of_ok hfirst] at hrun ⊢
              obtain ⟨earlier, refused, later, rfl, hok, hrefused⟩ := ih hrun
              refine ⟨entry :: earlier, refused, later, rfl, ?_, ?_⟩
              · rw [installEach_cons_of_ok hfirst]
                exact hok
              · rw [installEach_cons_of_ok hfirst]
                exact hrefused

theorem install_eq_of_makeDirectories {made : FileSystem}
    (hmake : files.makeDirectories (path.join ⟨installDirectory⟩) = (made, .ok ()))
    (set : HeaderSet) :
    (files.install set path).files =
        (made.installEach (path.join ⟨installDirectory⟩) set.entries).files ∧
      (files.install set path).outcome =
        (made.installEach (path.join ⟨installDirectory⟩) set.entries).outcome := by
  simp only [install, hmake, and_self]

/-- An installation that fails has either failed to make its directory, or it has
installed the headers before some name, in the order of the names' bytes, and was
refused the header of that name.  The refusal leaves directories behind and
changes nothing else, and nothing has been done after it. -/
theorem install_isInterrupted (hrun : (files.install set path).outcome = .error error) :
    (∃ fault, files.makeDirectories (path.join ⟨installDirectory⟩) =
          ((files.install set path).files, .error fault) ∧
        error = .create (path.join ⟨installDirectory⟩) fault ∧
        files.AddsDirectories (files.install set path).files) ∨
      ∃ name ∈ set.names, ∃ source, set.get? name = some source ∧
        (files.install (set.before name) path).outcome = .ok () ∧
        (files.install (set.before name) path).files.AddsDirectories
          (files.install set path).files ∧
        (files.install (set.before name) path).files.installHeader
            (path.join ⟨installDirectory⟩) name source =
          ((files.install set path).files, .error error) := by
  have hadds := addsDirectories_makeDirectories files (path.join ⟨installDirectory⟩)
  cases hmake : files.makeDirectories (path.join ⟨installDirectory⟩) with
  | mk made outcome =>
      cases outcome with
      | error fault =>
          left
          rw [hmake] at hadds
          have hinstall : files.install set path =
              ⟨made, [.installing (path.join ⟨installDirectory⟩)],
                .error (.create (path.join ⟨installDirectory⟩) fault)⟩ := by
            simp only [install, hmake]
          rw [hinstall] at hrun ⊢
          exact ⟨fault, rfl, (Except.error.inj hrun).symm, hadds⟩
      | ok =>
          right
          obtain ⟨hfiles, houtcome⟩ := install_eq_of_makeDirectories hmake set
          rw [houtcome] at hrun
          obtain ⟨earlier, entry, later, hentries, hok, hrefused⟩ :=
            exists_refused_of_installEach hrun
          have hentry : entry ∈ set.entries := by simp [hentries]
          obtain ⟨hbefore, hbeforeOutcome⟩ :=
            install_eq_of_makeDirectories hmake (set.before entry.1)
          rw [HeaderSet.entries_before hentries] at hbefore hbeforeOutcome
          rw [← hbefore, ← hfiles] at hrefused
          refine ⟨entry.1, List.mem_map_of_mem hentry, entry.2,
            HeaderSet.get?_of_mem_entries hentry, hbeforeOutcome.trans hok, ?_, hrefused⟩
          exact addsDirectories_of_installHeader hrefused

/-- A file and a link to an empty directory. -/
def linkedFiles : FileSystem where
  root := .directory
    [(⟨"given", by decide⟩, .file (Utf8.encode "first")),
      (⟨"linked", by decide⟩, .directory []), (⟨"p", by decide⟩, .link ⟨"linked"⟩)]
  current := []
  distinct := by
    refine .directory (by decide) ?_
    simp only [List.mem_cons, List.not_mem_nil, or_false]
    rintro entry (rfl | rfl | rfl)
    · exact .file
    · exact .directory_nil
    · exact .link

/-- The source of the second header is missing. -/
def incompleteSet : HeaderSet :=
  .insertMany .empty [("a", ⟨"given"⟩), ("d/b", ⟨"missing"⟩), ("e", ⟨"given"⟩)]

theorem install_isInterrupted_incomplete :
    (linkedFiles.install incompleteSet ⟨"p"⟩).outcome =
        .error (.copy ⟨"missing"⟩ ⟨"p/include/c++/d/b"⟩ .missing) ∧
      ((∃ fault, linkedFiles.makeDirectories ((Path.mk "p").join ⟨installDirectory⟩) =
            ((linkedFiles.install incompleteSet ⟨"p"⟩).files, .error fault) ∧
          InstallError.copy ⟨"missing"⟩ ⟨"p/include/c++/d/b"⟩ .missing =
            .create ((Path.mk "p").join ⟨installDirectory⟩) fault ∧
          linkedFiles.AddsDirectories (linkedFiles.install incompleteSet ⟨"p"⟩).files) ∨
        ∃ name ∈ incompleteSet.names, ∃ source, incompleteSet.get? name = some source ∧
          (linkedFiles.install (incompleteSet.before name) ⟨"p"⟩).outcome = .ok () ∧
          (linkedFiles.install (incompleteSet.before name) ⟨"p"⟩).files.AddsDirectories
            (linkedFiles.install incompleteSet ⟨"p"⟩).files ∧
          (linkedFiles.install (incompleteSet.before name) ⟨"p"⟩).files.installHeader
              ((Path.mk "p").join ⟨installDirectory⟩) name source =
            ((linkedFiles.install incompleteSet ⟨"p"⟩).files,
              .error (.copy ⟨"missing"⟩ ⟨"p/include/c++/d/b"⟩ .missing))) := by
  have hrun : (linkedFiles.install incompleteSet ⟨"p"⟩).outcome =
      .error (.copy ⟨"missing"⟩ ⟨"p/include/c++/d/b"⟩ .missing) := by decide +kernel
  exact ⟨hrun, install_isInterrupted hrun⟩

end FileSystem

end Freestanding
