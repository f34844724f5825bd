import Freestanding.Text.Plain

/-!
# Usage

What the command line is made of, and how wrong uses of it are worded.
-/

namespace Freestanding

inductive Operand
  | destination
  | sourceRoot
  deriving DecidableEq

namespace Operand

def all : List Operand := [.destination, .sourceRoot]

def name : Operand → String
  | .destination => "PREFIX"
  | .sourceRoot => "SOURCE_ROOT"

def label (operand : Operand) : String := "<" ++ operand.name ++ ">"

def anyLabel : String := "<" ++ "|".intercalate (all.map name) ++ ">"

end Operand

inductive Flag
  | help
  | version
  deriving DecidableEq

namespace Flag

def all : List Flag := [.help, .version]

def name : Flag → String
  | .help => "help"
  | .version => "version"

def letter : Flag → Char
  | .help => 'h'
  | .version => 'V'

def long (flag : Flag) : String := "--" ++ flag.name

def ofName? (name : String) : Option Flag :=
  all.find? (·.name = name)

def ofLetter? (letter : Char) : Option Flag :=
  all.find? (·.letter = letter)

end Flag

/-- What to suggest about an argument that is one too many. -/
inductive Hint
  | nothing
  /-- An argument that begins with a hyphen can be protected by `--`. -/
  | protect
  | similar (flag : Flag)
  deriving DecidableEq

inductive UsageError
  | missing (operands : List Operand)
  | empty (operand : Operand)
  | unexpected (argument : String) (hint : Hint)
  /-- A flag was given a value, maybe when an operand had been checked before. -/
  | unexpectedValue (flag : Flag) (value : String) (operandChecked : Bool)
  deriving DecidableEq

def programName : String := "cxx-freestanding-headers"

def programVersion : String := "0.1.0"

/-- The line that shows how the program is called, with flags in front of the
operands. -/
def usageLine (flags : List Flag) (operands : List String) : String :=
  "Usage: " ++ " ".intercalate (programName :: flags.map Flag.long ++ operands)

def operandLabels : List String := Operand.all.map Operand.label

/-- The hint, about an argument that is written as plain text. -/
def Hint.text (argument : String) : Hint → String
  | .nothing => ""
  | .protect => "\n\n  tip: to pass '" ++ argument ++ "' as a value, use '-- " ++ argument ++ "'"
  | .similar flag => "\n\n  tip: a similar argument exists: '" ++ flag.long ++ "'"

def Hint.flags : Hint → List Flag
  | .similar flag => [flag]
  | _ => []

/-- What is wrong, and the usage line where it helps.  What the user wrote is
shown as plain text. -/
def UsageError.explanation : UsageError → String
  | .missing operands =>
    "the following required arguments were not provided:" ++
      String.join (operands.map fun operand => "\n  " ++ operand.label) ++
      "\n\n" ++ usageLine [] operandLabels
  | .empty operand => "a value is required for '" ++ operand.label ++ "' but none was supplied"
  | .unexpected argument hint =>
    "unexpected argument '" ++ plainText argument ++ "' found" ++
      hint.text (plainText argument) ++ "\n\n" ++ usageLine hint.flags operandLabels
  | .unexpectedValue flag value operandChecked =>
    "unexpected value '" ++ plainText value ++ "' for '" ++ flag.long ++
      "' found; no more were expected\n\n" ++
      usageLine [flag] (if operandChecked then [Operand.anyLabel] else operandLabels)

def UsageError.message (error : UsageError) : String :=
  "error: " ++ error.explanation ++ "\n\nFor more information, try '--help'.\n\n"

def versionText : String := programName ++ " " ++ programVersion ++ "\n"

def helpText : String :=
  "Extract and install the C++ freestanding header set\n\n" ++
    usageLine [] operandLabels ++ "\n\n" ++
    "Arguments:\n" ++
    "  <PREFIX>       Installation prefix; headers land in <PREFIX>/include/c++\n" ++
    "  <SOURCE_ROOT>  Root of the libstdc++ source tree to search\n\n" ++
    "Options:\n" ++
    "  -h, --help     Print help\n" ++
    "  -V, --version  Print version\n"

end Freestanding
