/-!
# Plain text

A text may hold control sequences, which steer a terminal and are not shown by
it.  `plainText` is what is left without them and without control characters;
only a tab, a line feed, a form feed and a carriage return stay.

A sequence begins with an escape character.  Its kind, and with it the end,
depends on the characters that follow.  Another escape character begins a new
sequence, and CAN and SUB give any sequence up.
-/

namespace Freestanding

inductive ControlState
  | outside
  | escape
  /-- In a sequence that ends with a character from `0` to `~`. -/
  | short
  /-- In a sequence that ends with a character from `@` to `~`. -/
  | parameters
  | command
  /-- In front of the parameters of a string for the device. -/
  | device
  | deviceParameters
  | deviceName
  /-- In a string, which a byte 0x9C ends. -/
  | string
  deriving DecidableEq

def isBetween (first last c : Char) : Bool :=
  decide (first ≤ c) && decide (c ≤ last)

def isSpacing (c : Char) : Bool :=
  c ∈ ['\t', '\n', '\x0c', '\r']

def isPrintable (c : Char) : Bool :=
  decide (' ' ≤ c) && decide (c ≠ '\x7f')

namespace ControlState

/-- Whether a character stays.  One that stays ends a sequence. -/
def keeps (state : ControlState) (c : Char) : Bool :=
  match state with
  | outside => isPrintable c || isSpacing c
  | escape | short | parameters => isSpacing c
  | _ => false

/-- The kind of a sequence, by the character behind the escape character. -/
def ofLead (c : Char) : ControlState :=
  if c = '[' then parameters
  else if c = ']' then command
  else if c = 'P' then device
  else if c ∈ ['X', '^', '_'] then string
  else if isBetween ' ' '/' c then short
  else if isBetween '0' '~' c then outside
  else escape

/-- The state after a character that neither stays nor begins or gives up a
sequence. -/
def skip (state : ControlState) (c : Char) : ControlState :=
  match state with
  | outside => outside
  | escape => ofLead c
  | short => if isBetween '0' '~' c then outside else short
  | parameters => if isBetween '@' '~' c then outside else parameters
  | command => if c = '\x07' then outside else command
  | device =>
    if isBetween ' ' '/' c then deviceName
    else if isBetween '@' '~' c then string
    else if isBetween '0' '?' c then deviceParameters
    else device
  | deviceParameters =>
    if isBetween ' ' '/' c then deviceName
    else if isBetween '<' '~' c then string
    else deviceParameters
  | deviceName => if isBetween '0' '~' c then string else deviceName
  | string => if 0x9C ∈ String.utf8EncodeChar c then outside else string

def next (state : ControlState) (c : Char) : ControlState :=
  if state.keeps c then outside
  else if c = '\x1b' then escape
  else if c = '\x18' || c = '\x1a' then outside
  else state.skip c

def plain : ControlState → List Char → List Char
  | _, [] => []
  | state, c :: cs =>
    let rest := plain (state.next c) cs
    if state.keeps c then c :: rest else rest

end ControlState

def plainText (text : String) : String :=
  String.ofList (ControlState.outside.plain text.toList)

end Freestanding
