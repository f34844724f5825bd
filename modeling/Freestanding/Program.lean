import Freestanding.CommandLine.Invocation
import Freestanding.Extraction

/-!
# The program

The program reads its arguments, extracts headers and reports on it.  Events are
logged in front of the summary, as far as the chosen verbosity asks for them;
the verbosity changes nothing else.

A verbosity is any filter on events.  The setting that it is chosen by may name a
level, or levels for single parts of the program in a notation of their own.  Only
bare levels are read here, and the empty text; how a setting is read is left open
wherever the choice does not matter.
-/

namespace Freestanding

/-- A filter on the events that are logged. -/
structure Verbosity where
  shows : Event → Bool

namespace Verbosity

def quiet : Verbosity where
  shows _ := false

def info : Verbosity where
  shows event := event.level = .info

def debug : Verbosity where
  shows _ := true

/-- The verbosity for a bare level: its name, in capitals or not, or its number.
The empty text asks for errors only.  No event is as severe as a warning. -/
def ofLevel? (text : String) : Option Verbosity :=
  let lower := String.ofList (text.toList.map Char.toLower)
  if lower ∈ ["", "off", "0", "error", "1", "warn", "2"] then some quiet
  else if lower ∈ ["info", "3"] then some info
  else if lower ∈ ["debug", "4", "trace", "5"] then some debug
  else none

/-- The verbosity for a setting, given how a text is read.  It is that of `info` if
there is no setting or it cannot be read. -/
def ofSettingBy (read? : String → Option Verbosity) (setting : Option String) : Verbosity :=
  (setting.bind read?).getD info

def ofSetting : Option String → Verbosity :=
  ofSettingBy ofLevel?

def ofText (text : String) : Verbosity :=
  ofSetting (some text)

end Verbosity

/-! ### Log lines -/

def Level.label : Level → String
  | .info => "INFO"
  | .debug => "DEBUG"

def Origin.label : Origin → String
  | .program => "cxx_freestanding_headers"
  | .resolution => "cxx_freestanding_headers::resolve"
  | .installation => "cxx_freestanding_headers::install"

def hexDigit (n : Nat) : Char :=
  if n < 10 then Char.ofNat (0x30 + n) else Char.ofNat (0x57 + n)

/-- A character as it stands in a log line: those that could control a terminal
are written as escapes. -/
def logCharacter (c : Char) : List Char :=
  let code := c.toNat
  let digits := [hexDigit (code / 16), hexDigit (code % 16)]
  if code ∈ [0x07, 0x08, 0x0C, 0x1B, 0x7F] then '\\' :: 'x' :: digits
  else if 0x80 ≤ code ∧ code ≤ 0x9F then '\\' :: 'u' :: '{' :: digits ++ ['}']
  else [c]

def Event.logLine (event : Event) : String :=
  event.level.label ++ " " ++ event.origin.label ++ ": " ++
    String.ofList (event.message.toList.flatMap logCharacter) ++ "\n"

def logText (verbosity : Verbosity) (events : List Event) : String :=
  String.join ((events.filter verbosity.shows).map Event.logLine)

/-! ### Running -/

structure Report where
  files : FileSystem
  status : Nat
  output : String
  errors : String

/-- The message of an error and, if it has one, its cause. -/
def ExtractionError.report (error : ExtractionError) : String :=
  "Error: " ++ error.message ++
    match error.cause? with
    | some fault => "\n\nCaused by:\n    " ++ fault.message ++ "\n"
    | none => "\n"

def summary (count : Nat) (destination : Path) : String :=
  "Installed " ++ toString count ++ " headers to " ++
    (destination.join ⟨installDirectory⟩).text ++ "\n"

def FileSystem.runExtraction (files : FileSystem) (verbosity : Verbosity)
    (destination sourceRoot : Path) : Report :=
  let extraction := files.extract destination sourceRoot
  let log := logText verbosity (.resolving sourceRoot :: extraction.events)
  match extraction.outcome with
  | .ok count => ⟨extraction.files, 0, log ++ summary count destination, ""⟩
  | .error error => ⟨extraction.files, 1, log, error.report⟩

def FileSystem.run (files : FileSystem) (verbosity : Verbosity) (arguments : List String) :
    Report :=
  match Invocation.ofArguments arguments with
  | .error error => ⟨files, 1, "", error.message⟩
  | .ok .help => ⟨files, 0, helpText, ""⟩
  | .ok .version => ⟨files, 0, versionText, ""⟩
  | .ok (.extract destination sourceRoot) => files.runExtraction verbosity destination sourceRoot

end Freestanding
