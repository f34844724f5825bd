/-!
# UTF-8

`Utf8.encode` writes a text as bytes.  `Utf8.decode` reads any bytes: a maximal
run of bytes that begins a character and cannot be completed becomes one
replacement character U+FFFD.  The decoder is a machine with one state per
position inside a character, so that a byte that begins a character, such as a
line feed, always brings it back to where it started.
-/

namespace Freestanding.Utf8

def encode (text : String) : List UInt8 :=
  text.toList.flatMap String.utf8EncodeChar

theorem encode_append (left right : String) :
    encode (left ++ right) = encode left ++ encode right := by
  simp [encode]

def replacement : Char := '\uFFFD'

inductive State
  | start
  /-- Inside a character of which the bits `value` are known: the six bits in the
  next byte are to lie between `low` and `high`, and `more` bytes follow it. -/
  | inside (more low high value : Nat)
  deriving DecidableEq

/-- Reads a byte between characters: the characters that it completes, and the
state after it. -/
def lead (byte : Nat) : List Char × State :=
  if byte ≤ 0x7F then ([Char.ofNat byte], .start)
  else if 0xC2 ≤ byte ∧ byte ≤ 0xDF then ([], .inside 0 0 0x3F (byte - 0xC0))
  else if byte = 0xE0 then ([], .inside 1 0x20 0x3F 0)
  else if byte = 0xED then ([], .inside 1 0 0x1F 0xD)
  else if 0xE1 ≤ byte ∧ byte ≤ 0xEF then ([], .inside 1 0 0x3F (byte - 0xE0))
  else if byte = 0xF0 then ([], .inside 2 0x10 0x3F 0)
  else if 0xF1 ≤ byte ∧ byte ≤ 0xF3 then ([], .inside 2 0 0x3F (byte - 0xF0))
  else if byte = 0xF4 then ([], .inside 2 0 0xF 4)
  else ([replacement], .start)

/-- Reads a byte.  One that does not continue the character at hand ends it
with a replacement character and is read again between characters. -/
def State.step : State → Nat → List Char × State
  | .start, byte => lead byte
  | .inside more low high value, byte =>
    if 0x80 + low ≤ byte ∧ byte ≤ 0x80 + high then
      match more with
      | 0 => ([Char.ofNat (value * 64 + (byte - 0x80))], .start)
      | more + 1 => ([], .inside more 0 0x3F (value * 64 + (byte - 0x80)))
    else (replacement :: (lead byte).1, (lead byte).2)

/-- The characters still to come when the bytes end. -/
def State.finish : State → List Char
  | .start => []
  | .inside .. => [replacement]

structure Decoder where
  state : State
  /-- The characters read so far, the latest first. -/
  done : List Char

def Decoder.read (decoder : Decoder) (byte : UInt8) : Decoder :=
  let (characters, state) := decoder.state.step byte.toNat
  ⟨state, characters.reverse ++ decoder.done⟩

def Decoder.characters (decoder : Decoder) : List Char :=
  (decoder.state.finish ++ decoder.done).reverse

def decode (bytes : List UInt8) : String :=
  String.ofList (bytes.foldl Decoder.read ⟨.start, []⟩).characters

def decode? (bytes : List UInt8) : Option String :=
  if encode (decode bytes) = bytes then some (decode bytes) else none

theorem characters_foldl_read (state : State) (done : List Char) (bytes : List UInt8) :
    (bytes.foldl Decoder.read ⟨state, done⟩).characters =
      done.reverse ++ (bytes.foldl Decoder.read ⟨state, []⟩).characters := by
  induction bytes generalizing state done with
  | nil => cases state <;> simp [Decoder.characters, State.finish]
  | cons byte bytes ih =>
      simp only [List.foldl_cons, Decoder.read]
      rw [ih _ (_ ++ done), ih _ (_ ++ [])]
      simp

/-- An ASCII byte is a character of its own, and what stands before it and after
it is decoded as if it were alone. -/
theorem decode_append_ascii {byte : UInt8} (hbyte : byte.toNat ≤ 0x7F)
    (before after : List UInt8) :
    decode (before ++ byte :: after) =
      decode before ++ String.singleton (Char.ofNat byte.toNat) ++ decode after := by
  have hread : ∀ decoder : Decoder, ((byte :: after).foldl Decoder.read decoder).characters =
      decoder.characters ++ Char.ofNat byte.toNat ::
        (after.foldl Decoder.read ⟨.start, []⟩).characters := by
    rintro ⟨state, done⟩
    simp only [List.foldl_cons, Decoder.read]
    rw [characters_foldl_read]
    cases state with
    | start => simp [State.step, State.finish, lead, hbyte, Decoder.characters]
    | inside more low high value =>
        have hbreaks : ¬ (0x80 + low ≤ byte.toNat ∧ byte.toNat ≤ 0x80 + high) := by omega
        simp [State.step, State.finish, lead, hbyte, hbreaks, Decoder.characters]
  rw [← String.toList_inj]
  simp only [decode, List.foldl_append, hread]
  simp

end Freestanding.Utf8
