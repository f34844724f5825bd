import Freestanding.Program
import Freestanding.Proofs.ByteLines
import Freestanding.Proofs.IncludedNames
import Freestanding.Proofs.OneLineEvents

/-!
# What a run reports

A run that is given operands does what the extraction does and reports its
outcome.  Its output is the log and, if the extraction succeeds, a summary behind
it.  The verbosity decides which log lines are written and nothing else, whatever
filter on events it is and however it is read from a setting.

A log line quotes paths as they are, but for characters that control a terminal.
A line feed in a path is not among those, so that what stands behind it appears
in the output as a line of its own, which may well look like a summary.  That is
the only way for a run that fails to print a line like it.
-/

namespace Freestanding

/-! ### Lines of an output -/

theorem dropFinalReturn_isPrefix (line : List Char) : dropFinalReturn line <+: line := by
  induction line with
  | nil => exact List.prefix_rfl
  | cons c cs ih =>
      unfold dropFinalReturn
      split_ifs
      · exact List.nil_prefix
      · exact List.cons_prefix_cons.mpr ⟨rfl, ih⟩

/-! ### Lines of the log -/

theorem hexDigit_ne_newline (n : Nat) : hexDigit n ≠ '\n' := by
  unfold hexDigit
  split_ifs
  · exact ofNat_ne_newline (by omega)
  · exact ofNat_ne_newline (by omega)

theorem newline_mem_logCharacter_iff {c : Char} : '\n' ∈ logCharacter c ↔ c = '\n' := by
  unfold logCharacter
  dsimp only
  split_ifs with hcontrol hhigh
  · have hne : c ≠ '\n' := by
      rintro rfl
      exact absurd hcontrol (by decide)
    simp [hne, (hexDigit_ne_newline _).symm]
  · have hne : c ≠ '\n' := by
      rintro rfl
      exact absurd hhigh (by decide)
    simp [hne, (hexDigit_ne_newline _).symm]
  · rw [List.mem_singleton, eq_comm]

namespace Event

/-- What stands in front of the message in a log line. -/
def heading (event : Event) : String :=
  event.level.label ++ " " ++ event.origin.label ++ ": "

/-- The message as it stands in a log line. -/
def shownMessage (event : Event) : List Char :=
  event.message.toList.flatMap logCharacter

/-- The lines of the output that a log line takes, one if its message is on one
line. -/
def shownLines (event : Event) : List (List Char) :=
  (pieces '\n' (event.heading.toList ++ event.shownMessage)).map dropFinalReturn

/-- The lines of the output that a log line takes behind the first one. -/
def furtherLines (event : Event) : List (List Char) :=
  (pieces '\n' event.shownMessage).tail.map dropFinalReturn

variable {event : Event}

theorem lines_logLine_append (event : Event) (rest : List Char) :
    lines (event.logLine.toList ++ rest) = event.shownLines ++ lines rest := by
  have hline : event.logLine.toList ++ rest =
      event.heading.toList ++ event.shownMessage ++ '\n' :: rest := by
    simp [logLine, heading, shownMessage]
  rw [hline, lines_append_feed, shownLines]

theorem isOneLine_heading (event : Event) : IsOneLine event.heading := by
  unfold heading
  cases event.level <;> cases event.origin <;> decide

theorem not_isPrefix_heading_append (event : Event) (rest : List Char) :
    ¬ ['I', 'n'] <+: event.heading.toList ++ rest := by
  unfold heading
  cases event.level <;> simp [Level.label]

/-- The first line of a log line does not begin as a summary does. -/
theorem mem_shownLines_iff {line : List Char} (hline : ['I', 'n'] <+: line) :
    line ∈ event.shownLines ↔ line ∈ event.furtherLines := by
  obtain ⟨first, more, hpieces⟩ :=
    List.exists_cons_of_ne_nil (pieces_ne_nil '\n' event.shownMessage)
  have hne : line ≠ dropFinalReturn (event.heading.toList ++ first) := by
    rintro rfl
    exact event.not_isPrefix_heading_append first (hline.trans (dropFinalReturn_isPrefix _))
  rw [shownLines, pieces_append_of_not_mem event.isOneLine_heading, furtherLines, hpieces]
  simp [hne]

theorem furtherLines_eq_nil (hmessage : IsOneLine event.message) : event.furtherLines = [] := by
  have hshown : '\n' ∉ event.shownMessage := by
    intro hfeed
    obtain ⟨c, hc, hmem⟩ := List.mem_flatMap.mp hfeed
    rw [newline_mem_logCharacter_iff.mp hmem] at hc
    exact hmessage hc
  rw [furtherLines, pieces_of_not_mem hshown]
  rfl

end Event

/-- The events that are logged. -/
def Verbosity.logged (verbosity : Verbosity) (events : List Event) : List Event :=
  events.filter verbosity.shows

/-- The log of events none of which is filtered out. -/
def fullLog (events : List Event) : String :=
  String.join (events.map Event.logLine)

theorem logText_eq (verbosity : Verbosity) (events : List Event) :
    logText verbosity events = fullLog (verbosity.logged events) :=
  rfl

/-- The lines of an output that begins with a log. -/
theorem lines_fullLog_append (logged : List Event) (rest : List Char) :
    lines ((fullLog logged).toList ++ rest) = logged.flatMap Event.shownLines ++ lines rest := by
  rw [fullLog, String.toList_join]
  induction logged with
  | nil => rfl
  | cons event logged ih =>
      rw [List.map_cons, List.flatMap_cons, List.append_assoc, event.lines_logLine_append, ih,
        List.flatMap_cons, List.append_assoc]

/-- A line that begins as a summary does is in a log only behind a line feed of a
message. -/
theorem mem_lines_fullLog_iff {logged : List Event} {line : List Char}
    (hline : ['I', 'n'] <+: line) :
    line ∈ lines (fullLog logged).toList ↔ ∃ event ∈ logged, line ∈ event.furtherLines := by
  have hlines := lines_fullLog_append logged []
  rw [List.append_nil, show lines [] = [] from rfl, List.append_nil] at hlines
  simp only [hlines, List.mem_flatMap, Event.mem_shownLines_iff hline]

/-! ### The summary -/

/-- The line that a run which succeeds ends with. -/
def summaryLine (count : Nat) (destination : Path) : String :=
  "Installed " ++ toString count ++ " headers to " ++
    (destination.join ⟨installDirectory⟩).text

variable {count : Nat} {destination sourceRoot : Path}

theorem summary_eq (count : Nat) (destination : Path) :
    summary count destination = summaryLine count destination ++ "\n" :=
  rfl

theorem isPrefix_summaryLine (count : Nat) (destination : Path) :
    ['I', 'n'] <+: (summaryLine count destination).toList := by
  simp [summaryLine]

theorem isOneLine_summaryLine (hdestination : IsOneLine destination.text) :
    IsOneLine (summaryLine count destination) := by
  have hplace : IsOneLine (destination.join ⟨installDirectory⟩).text :=
    Path.isOneLine_join hdestination (by decide)
  have hwords : IsOneLine "Installed " ∧ IsOneLine " headers to " := by decide
  simp [summaryLine, hplace, hwords]

theorem lines_summary (hdestination : IsOneLine destination.text) :
    lines (summary count destination).toList = [(summaryLine count destination).toList] := by
  have hrelative : (Path.mk installDirectory).isAbsolute = false := by decide
  obtain ⟨gap, -, hplace⟩ := destination.text_join hrelative
  have hend : (summaryLine count destination).toList.getLast? ≠ some '\r' := by
    have hdirectory : installDirectory.toList.getLast? = some '+' := by decide
    simp only [summaryLine, hplace, String.toList_append, List.getLast?_append, hdirectory]
    simp
  rw [summary_eq, String.toList_append, show "\n".toList = ['\n'] from rfl,
    lines_append_newline (isOneLine_summaryLine hdestination),
    dropFinalReturn_of_getLast?_ne hend]
  rfl

/-! ### Runs -/

/-- Whether a report tells of an extraction, with a log of some events in front of
the summary. -/
structure Report.Describes (report : Report) (extraction : Extraction) (destination : Path)
    (logged : List Event) : Prop where
  files : report.files = extraction.files
  success : ∀ count, extraction.outcome = .ok count →
    report.status = 0 ∧ report.errors = "" ∧
      report.output = fullLog logged ++ summaryLine count destination ++ "\n"
  failure : ∀ error, extraction.outcome = .error error →
    report.status = 1 ∧ report.output = fullLog logged ∧
      (error.cause? = none → report.errors = "Error: " ++ error.message ++ "\n") ∧
      ∀ fault, error.cause? = some fault →
        report.errors =
          "Error: " ++ error.message ++ "\n\nCaused by:\n    " ++ fault.message ++ "\n"

section Describes

variable {report : Report} {extraction : Extraction} {logged : List Event}

theorem Report.Describes.getLast?_lines
    (hreport : report.Describes extraction destination logged)
    (hsuccess : extraction.outcome = .ok count) (hdestination : IsOneLine destination.text) :
    (lines report.output.toList).getLast? = some (summaryLine count destination).toList := by
  rw [(hreport.success count hsuccess).2.2, String.append_assoc, ← summary_eq,
    String.toList_append, lines_fullLog_append, lines_summary hdestination, List.getLast?_concat]

theorem Report.Describes.mem_lines_iff
    (hreport : report.Describes extraction destination logged) {error : ExtractionError}
    (hfailure : extraction.outcome = .error error) (count : Nat) :
    (summaryLine count destination).toList ∈ lines report.output.toList ↔
      ∃ event ∈ logged, (summaryLine count destination).toList ∈ event.furtherLines := by
  rw [(hreport.failure error hfailure).2.1]
  exact mem_lines_fullLog_iff (isPrefix_summaryLine count destination)

end Describes

namespace FileSystem

variable {files : FileSystem} {verbosity : Verbosity} {arguments : List String}

theorem runExtraction_describes (files : FileSystem) (verbosity : Verbosity)
    (destination sourceRoot : Path) :
    (files.runExtraction verbosity destination sourceRoot).Describes
      (files.extract destination sourceRoot) destination
      (verbosity.logged
        (.resolving sourceRoot :: (files.extract destination sourceRoot).events)) := by
  unfold runExtraction
  dsimp only
  cases houtcome : (files.extract destination sourceRoot).outcome with
  | ok count =>
      refine ⟨rfl, ?_, fun _ hother => absurd (houtcome.symm.trans hother) (by simp)⟩
      intro other hother
      obtain rfl := Except.ok.inj (houtcome.symm.trans hother)
      exact ⟨rfl, rfl, by rw [String.append_assoc, ← summary_eq, ← logText_eq]⟩
  | error error =>
      refine ⟨rfl, fun _ hother => absurd (houtcome.symm.trans hother) (by simp), ?_⟩
      intro other hother
      obtain rfl := Except.error.inj (houtcome.symm.trans hother)
      refine ⟨rfl, rfl, ?_, ?_⟩
      · intro hcause
        simp [ExtractionError.report, hcause]
      · intro fault hcause
        simp [ExtractionError.report, hcause, String.append_assoc]

/-- What a run logs if nothing is filtered out. -/
def runEvents (files : FileSystem) (arguments : List String) : List Event :=
  match Invocation.ofArguments arguments with
  | .ok (.extract destination sourceRoot) =>
    .resolving sourceRoot :: (files.extract destination sourceRoot).events
  | _ => []

/-- The verbosity decides on the log and on nothing else. -/
theorem exists_run_eq (files : FileSystem) (arguments : List String) :
    ∃ quiet : Report, ∀ verbosity, files.run verbosity arguments =
      { quiet with
        output := fullLog (verbosity.logged (files.runEvents arguments)) ++ quiet.output } := by
  have hempty (verbosity : Verbosity) : fullLog (verbosity.logged []) = "" := rfl
  unfold run runEvents
  cases Invocation.ofArguments arguments with
  | error error => exact ⟨⟨files, 1, "", error.message⟩, by simp [hempty]⟩
  | ok invocation =>
      cases invocation with
      | help => exact ⟨⟨files, 0, helpText, ""⟩, by simp [hempty]⟩
      | version => exact ⟨⟨files, 0, versionText, ""⟩, by simp [hempty]⟩
      | extract destination sourceRoot =>
          unfold runExtraction
          dsimp only
          cases (files.extract destination sourceRoot).outcome with
          | ok count =>
              exact ⟨⟨(files.extract destination sourceRoot).files, 0,
                summary count destination, ""⟩, by simp [logText_eq]⟩
          | error error =>
              exact ⟨⟨(files.extract destination sourceRoot).files, 1, "", error.report⟩,
                by simp [logText_eq]⟩

theorem isOneLine_of_mem_runEvents
    (harguments : Invocation.ofArguments arguments = .ok (.extract destination sourceRoot))
    (hdestination : IsOneLine destination.text)
    (hpaths : (SourceTree.mk files sourceRoot).HasOneLinePaths) :
    ∀ event ∈ files.runEvents arguments, IsOneLine event.message := by
  simp only [runEvents, harguments, List.forall_mem_cons]
  refine ⟨?_, isOneLine_of_mem_events_extract hdestination hpaths⟩
  exact Event.isOneLine_message (by simpa [Event.quoted] using hpaths.root)

/-- A run agrees with the extraction that its operands ask for.  Without operands
it changes nothing, and its status is 0 for the help text and the version and 1
for a usage error.  With operands it leaves the files that the extraction leaves
and reports a success or a failure as such.  The setting changes only the log in
front of the summary, for every way in which settings are read.

The summary is the last line of the output if the destination is on one line.  A
run that fails prints such a line only where a message in the log holds it behind
a line feed, and hence never if the operands and the names in the source tree are
on one line. -/
theorem run_agrees_with_extract (files : FileSystem) (read? : String → Option Verbosity)
    (setting : Option String) (arguments : List String) :
    let report := files.run (.ofSettingBy read? setting) arguments
    let logged (setting : Option String) :=
      (Verbosity.ofSettingBy read? setting).logged (files.runEvents arguments)
    (∀ error, Invocation.ofArguments arguments = .error error →
        report.files = files ∧ report.status = 1) ∧
      (∀ invocation, Invocation.ofArguments arguments = .ok invocation →
        invocation = .help ∨ invocation = .version → report.files = files ∧ report.status = 0) ∧
      (∀ destination sourceRoot,
        Invocation.ofArguments arguments = .ok (.extract destination sourceRoot) →
          report.Describes (files.extract destination sourceRoot) destination (logged setting) ∧
          (∀ count, (files.extract destination sourceRoot).outcome = .ok count →
            IsOneLine destination.text →
              (lines report.output.toList).getLast? =
                some (summaryLine count destination).toList) ∧
          ∀ error, (files.extract destination sourceRoot).outcome = .error error → ∀ count,
            ((summaryLine count destination).toList ∈ lines report.output.toList ↔
              ∃ event ∈ logged setting,
                (summaryLine count destination).toList ∈ event.furtherLines) ∧
              (IsOneLine destination.text → (SourceTree.mk files sourceRoot).HasOneLinePaths →
                (summaryLine count destination).toList ∉ lines report.output.toList)) ∧
      ∃ rest, ∀ other, files.run (.ofSettingBy read? other) arguments =
        { report with output := fullLog (logged other) ++ rest } := by
  intro report logged
  refine ⟨?_, ?_, ?_, ?_⟩
  · intro error harguments
    simp [report, run, harguments]
  · rintro invocation harguments (rfl | rfl)
    · simp [report, run, harguments]
    · simp [report, run, harguments]
  · intro destination sourceRoot harguments
    have hreport : report.Describes (files.extract destination sourceRoot) destination
        (logged setting) := by
      simp only [report, logged, run, runEvents, harguments]
      exact files.runExtraction_describes _ destination sourceRoot
    refine ⟨hreport, fun count hsuccess => hreport.getLast?_lines hsuccess, ?_⟩
    intro error hfailure count
    have hmem := hreport.mem_lines_iff hfailure count
    refine ⟨hmem, ?_⟩
    intro hdestination hpaths hline
    obtain ⟨event, hevent, hfurther⟩ := hmem.mp hline
    have hmessage := isOneLine_of_mem_runEvents harguments hdestination hpaths event
      (List.mem_filter.mp hevent).1
    simp [Event.furtherLines_eq_nil hmessage] at hfurther
  · obtain ⟨quiet, hquiet⟩ := files.exists_run_eq arguments
    refine ⟨quiet.output, fun other => ?_⟩
    simp only [report, logged, hquiet]

/-! ### Line feeds in operands -/

/-- A file system whose tree `a` holds the headers to begin with, all empty. -/
def flatFiles : FileSystem :=
  (freestandingHeaders.map fun name => "a/" ++ name).foldl
    (fun files path => (files.write ⟨path⟩ []).toOption.getD files)
    (FileSystem.empty.makeDirectories ⟨"a"⟩).1

/-- A root that quotes a summary. -/
def quotingRoot : Path := ⟨"s\nInstalled 7 headers to p/include/c++"⟩

/-- If a root is not there, the log shows the summary that it quotes on a line of
its own.  A destination may be on two lines, and then its summary is as well. -/
theorem run_prints_quoted_summary :
    (FileSystem.empty.extract ⟨"p"⟩ quotingRoot).outcome =
        .error (.search (.notFound "cstddef" quotingRoot)) ∧
      (summaryLine 7 ⟨"p"⟩).toList ∈
        lines (FileSystem.empty.run (.ofSetting none) ["p", quotingRoot.text]).output.toList ∧
      (flatFiles.extract ⟨"p\nq"⟩ ⟨"a"⟩).outcome = .ok 7 ∧
      (lines (flatFiles.run (.ofSetting none) ["p\nq", "a"]).output.toList).getLast? =
        some "q/include/c++".toList := by
  have hsuccess : (flatFiles.extract ⟨"p\nq"⟩ ⟨"a"⟩).outcome = .ok 7 := by decide +kernel
  have hrun : flatFiles.run (.ofSetting none) ["p\nq", "a"] =
      flatFiles.runExtraction .info ⟨"p\nq"⟩ ⟨"a"⟩ := rfl
  have hreport := flatFiles.runExtraction_describes .info ⟨"p\nq"⟩ ⟨"a"⟩
  have hlines : lines (summaryLine 7 ⟨"p\nq"⟩ ++ "\n").toList =
      ["Installed 7 headers to p".toList, "q/include/c++".toList] := by decide +kernel
  refine ⟨by decide +kernel, by decide +kernel, hsuccess, ?_⟩
  rw [hrun, (hreport.success 7 hsuccess).2.2, String.append_assoc, String.toList_append,
    lines_fullLog_append, hlines]
  simp

end FileSystem

end Freestanding
