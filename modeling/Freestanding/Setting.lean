import Freestanding.Text.Utf8

/-!
# Settings of the configuration header

The configuration header comes from a source tree that was never configured, so
two of its macros are set by hand.  A setting replaces each line that defines
its macro, from the start of the line to the carriage return or line feed that
ends it, and leaves every other byte alone.  It works on bytes, since a header
may hold text in any encoding.
-/

namespace Freestanding

structure Setting where
  macroName : String
  value : String

def isGap (byte : UInt8) : Bool :=
  byte = 0x20 || byte = 0x09

def isLineEnd (byte : UInt8) : Bool :=
  byte = 0x0D || byte = 0x0A

/-- A byte that may stand in a macro's name: a digit, an ASCII letter or `_`. -/
def isWordByte (byte : UInt8) : Bool :=
  (decide (0x30 ≤ byte.toNat) && decide (byte.toNat ≤ 0x39)) ||
    (decide (0x41 ≤ byte.toNat) && decide (byte.toNat ≤ 0x5A)) ||
    (decide (0x61 ≤ byte.toNat) && decide (byte.toNat ≤ 0x7A)) || byte = 0x5F

namespace Setting

def definition (setting : Setting) : List UInt8 :=
  Utf8.encode ("# define " ++ setting.macroName ++ " " ++ setting.value)

/-- What follows the macro's name when the bytes open with a definition of it.
A longer name is the name of another macro. -/
def afterName? (setting : Setting) (bytes : List UInt8) : Option (List UInt8) := do
  let afterHash ← (Utf8.encode "#").isPrefixOf? (bytes.dropWhile isGap)
  let afterWord ← (Utf8.encode "define").isPrefixOf? (afterHash.dropWhile isGap)
  guard (afterWord.takeWhile isGap ≠ [])
  let afterName ← (Utf8.encode setting.macroName).isPrefixOf? (afterWord.dropWhile isGap)
  guard (afterName.head?.all (! isWordByte ·))
  return afterName

inductive Position
  /-- At the start of a line. -/
  | lineStart
  /-- Inside a line that stays. -/
  | keeping
  /-- Inside a definition that has been replaced. -/
  | dropping

def Position.after (byte : UInt8) : Position :=
  if byte = 0x0A then .lineStart else .keeping

/-- The bytes that follow a position, with the definitions among them replaced. -/
def replaceFrom (setting : Setting) : Position → List UInt8 → List UInt8
  | _, [] => []
  | .lineStart, byte :: bytes =>
    if (setting.afterName? (byte :: bytes)).isSome then
      setting.definition ++ setting.replaceFrom .dropping bytes
    else byte :: setting.replaceFrom (.after byte) bytes
  | .keeping, byte :: bytes => byte :: setting.replaceFrom (.after byte) bytes
  | .dropping, byte :: bytes =>
    if isLineEnd byte then byte :: setting.replaceFrom (.after byte) bytes
    else setting.replaceFrom .dropping bytes

def apply (setting : Setting) (contents : List UInt8) : List UInt8 :=
  setting.replaceFrom .lineStart contents

end Setting

/-- Symbols carry visibility attributes. -/
def visibility : Setting := ⟨"_GLIBCXX_HAVE_ATTRIBUTE_VISIBILITY", "1"⟩

/-- The library lives in no versioned inline namespace. -/
def inlineVersion : Setting := ⟨"_GLIBCXX_INLINE_VERSION", "0"⟩

def configure (contents : List UInt8) : List UInt8 :=
  inlineVersion.apply (visibility.apply contents)

def configureText (text : String) : String :=
  Utf8.decode (configure (Utf8.encode text))

end Freestanding
