import Freestanding.CommandLine.Usage
import Freestanding.Path
import Freestanding.Text.Similarity

/-!
# Reading the command line

Arguments are read from the left.  A flag acts at once, and what follows it is
not looked at.  As long as an operand is missing, an argument that begins with a
hyphen and is no known flag is taken for the operand; behind `--` every argument
is.  An operand is checked when the next argument is accepted, or at the end.
-/

namespace Freestanding

inductive Invocation
  | help
  | version
  | extract (destination sourceRoot : Path)
  deriving DecidableEq

inductive Word
  | separator
  /-- Two hyphens and a name, with a value behind an equals sign. -/
  | long (name : String) (value : Option String)
  | short (letter : Char) (letters : List Char)
  | plain
  deriving DecidableEq

def Word.ofArgument (argument : String) : Word :=
  match argument.toList with
  | ['-', '-'] => .separator
  | '-' :: '-' :: rest =>
    let name := String.ofList (rest.takeWhile (· ≠ '='))
    match rest.dropWhile (· ≠ '=') with
    | [] => .long name none
    | _ :: value => .long name (some (String.ofList value))
  | '-' :: letter :: letters => .short letter letters
  | _ => .plain

inductive Operands
  | none
  | one (destination : String)
  | both (destination sourceRoot : String)
  deriving DecidableEq

namespace Operands

def add? (argument : String) : Operands → Option Operands
  | none => some (one argument)
  | one destination => some (both destination argument)
  | both _ _ => Option.none

def areComplete : Operands → Bool
  | both _ _ => true
  | _ => false

/-- Refuses the operand read last if it is empty. -/
def check : Operands → Except UsageError Unit
  | none => .ok ()
  | one destination => if destination = "" then .error (.empty .destination) else .ok ()
  | both _ sourceRoot => if sourceRoot = "" then .error (.empty .sourceRoot) else .ok ()

/-- What to do with the operands when no argument is left. -/
def finish : Operands → Except UsageError Invocation
  | none => .error (.missing [.destination, .sourceRoot])
  | one _ => .error (.missing [.sourceRoot])
  | both destination sourceRoot => .ok (.extract ⟨destination⟩ ⟨sourceRoot⟩)

end Operands

def Flag.invocation : Flag → Invocation
  | .help => .help
  | .version => .version

def Flag.similarity (flag : Flag) (name : String) : Float :=
  jaroSimilarity name.toList flag.name.toList

/-- The flag that resembles a name most, the last one of several, if it does so
closely enough. -/
def similarFlag? (name : String) : Option Flag :=
  (Flag.all.filter fun flag => flag.similarity name > 0.7).foldl (fun best flag =>
    if best.all fun other : Flag => other.similarity name ≤ flag.similarity name then some flag
    else best) none

inductive Role
  | separator
  | flag (flag : Flag)
  | operand
  | wrong (error : UsageError)

/-- The role of an argument in front of `--`. -/
def Word.role (operands : Operands) (argument : String) : Word → Role
  | .separator => .separator
  | .long name value =>
    match Flag.ofName? name, value with
    | some flag, none => .flag flag
    | some flag, some value => .wrong (.unexpectedValue flag value operands.areComplete)
    | none, _ =>
      if operands.areComplete then
        .wrong (.unexpected ("--" ++ name) ((similarFlag? name).elim .protect .similar))
      else .operand
  | .short letter letters =>
    if ¬ operands.areComplete ∧ ¬ (letter :: letters).all (fun c => (Flag.ofLetter? c).isSome) then
      .operand
    else match Flag.ofLetter? letter with
      | some flag => .flag flag
      | none => .wrong (.unexpected (String.ofList ['-', letter]) .protect)
  | .plain => if operands.areComplete then .wrong (.unexpected argument .nothing) else .operand

/-- Reads the arguments that follow some operands, behind `--` or not. -/
def readArguments (behindSeparator : Bool) (operands : Operands) :
    List String → Except UsageError Invocation
  | [] => do
    operands.check
    operands.finish
  | argument :: rest =>
    let role :=
      if behindSeparator then .operand else (Word.ofArgument argument).role operands argument
    match role with
    | .separator => readArguments true operands rest
    | .flag flag => do
      operands.check
      return flag.invocation
    | .wrong error => .error error
    | .operand =>
      match operands.add? argument with
      | none => .error (.unexpected argument .nothing)
      | some more => do
        operands.check
        readArguments behindSeparator more rest

def Invocation.ofArguments (arguments : List String) : Except UsageError Invocation :=
  readArguments false .none arguments

end Freestanding
