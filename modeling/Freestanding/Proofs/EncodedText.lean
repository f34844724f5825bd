import Freestanding.Text.Pieces
import Freestanding.Text.Utf8
import Mathlib.Tactic.SplitIfs

/-!
# Encoded texts

Decoding the bytes of a text gives the text back.  Between two characters the
decoder is in its first state; the byte that begins a character takes it into the
character, and the last byte of the character takes it out again.

A byte of an ASCII character stands for that character wherever it occurs in an
encoded text, since all bytes of the other characters are greater.  So an encoded
text can be cut at such bytes as the text is cut at the characters.
-/

namespace Freestanding

namespace Utf8

/-! ### Bytes of a character -/

theorem toNat_ofNat_of_lt {n : Nat} (hn : n < 256) : (UInt8.ofNat n).toNat = n := by
  rw [UInt8.toNat_ofNat', Nat.mod_eq_of_lt hn]

theorem read_lead {byte : Nat} (hbyte : byte < 256) (done : List Char) :
    Decoder.read ⟨.start, done⟩ (UInt8.ofNat byte) =
      ⟨(lead byte).2, (lead byte).1.reverse ++ done⟩ := by
  rw [Decoder.read, toNat_ofNat_of_lt hbyte]
  rfl

/-- A byte in the middle of a character adds six bits to what is known of it. -/
theorem read_inner {more low high value bits : Nat} (hlow : low ≤ bits) (hhigh : bits ≤ high)
    (hbits : bits < 64) (done : List Char) :
    Decoder.read ⟨.inside (more + 1) low high value, done⟩ (UInt8.ofNat (bits + 0x80)) =
      ⟨.inside more 0 0x3F (value * 64 + bits), done⟩ := by
  have hrange : 0x80 + low ≤ bits + 0x80 ∧ bits + 0x80 ≤ 0x80 + high := by omega
  rw [Decoder.read, toNat_ofNat_of_lt (by omega)]
  simp [State.step, hrange]

/-- The last byte of a character completes it. -/
theorem read_last {low high value bits : Nat} (hlow : low ≤ bits) (hhigh : bits ≤ high)
    (hbits : bits < 64) (done : List Char) :
    Decoder.read ⟨.inside 0 low high value, done⟩ (UInt8.ofNat (bits + 0x80)) =
      ⟨.start, Char.ofNat (value * 64 + bits) :: done⟩ := by
  have hrange : 0x80 + low ≤ bits + 0x80 ∧ bits + 0x80 ≤ 0x80 + high := by omega
  rw [Decoder.read, toNat_ofNat_of_lt (by omega)]
  simp [State.step, hrange]

theorem lead_of_two {value : Nat} (hlow : 2 ≤ value) (hhigh : value < 32) :
    lead (value + 0xC0) = ([], .inside 0 0 0x3F value) := by
  have hrange : 0xC2 ≤ value + 0xC0 ∧ value + 0xC0 ≤ 0xDF := by omega
  rw [lead, if_neg (by omega), if_pos hrange, Nat.add_sub_cancel]

/-- What the first of three bytes lets follow: no character that two bytes can
hold, and no surrogate. -/
theorem exists_lead_of_three (value bits : Nat) (hvalue : value < 16) (hbits : bits < 64)
    (hlong : 0x20 ≤ value * 64 + bits)
    (hscalar : value * 64 + bits < 0xD * 64 + 0x20 ∨ 0xE ≤ value) :
    ∃ low high, lead (value + 0xE0) = ([], .inside 1 low high value) ∧
      low ≤ bits ∧ bits ≤ high := by
  unfold lead
  by_cases hzero : value = 0
  · subst hzero
    exact ⟨0x20, 0x3F, rfl, by omega, by omega⟩
  by_cases hsurrogate : value = 0xD
  · subst hsurrogate
    exact ⟨0, 0x1F, rfl, by omega, by omega⟩
  · have hrange : 0xE1 ≤ value + 0xE0 ∧ value + 0xE0 ≤ 0xEF := by omega
    refine ⟨0, 0x3F, ?_, by omega, by omega⟩
    rw [if_neg (by omega), if_neg (by omega), if_neg (by omega), if_neg (by omega), if_pos hrange,
      Nat.add_sub_cancel]

/-- What the first of four bytes lets follow: no character that three bytes can
hold, and nothing beyond the last character. -/
theorem exists_lead_of_four (value bits : Nat) (hbits : bits < 64)
    (hlong : 0x10 ≤ value * 64 + bits) (hlast : value * 64 + bits < 4 * 64 + 0x10) :
    ∃ low high, lead (value + 0xF0) = ([], .inside 2 low high value) ∧
      low ≤ bits ∧ bits ≤ high := by
  unfold lead
  by_cases hzero : value = 0
  · subst hzero
    exact ⟨0x10, 0x3F, rfl, by omega, by omega⟩
  by_cases hfour : value = 4
  · subst hfour
    exact ⟨0, 0xF, rfl, by omega, by omega⟩
  · have hrange : 0xF1 ≤ value + 0xF0 ∧ value + 0xF0 ≤ 0xF3 := by omega
    refine ⟨0, 0x3F, ?_, by omega, by omega⟩
    rw [if_neg (by omega), if_neg (by omega), if_neg (by omega), if_neg (by omega),
      if_neg (by omega), if_neg (by omega), if_pos hrange, Nat.add_sub_cancel]

/-- The bytes of a character are read as the character. -/
theorem foldl_read_utf8EncodeChar (c : Char) (done : List Char) :
    (String.utf8EncodeChar c).foldl Decoder.read ⟨.start, done⟩ = ⟨.start, c :: done⟩ := by
  obtain ⟨n, hn⟩ : ∃ n, c.val.toNat = n := ⟨_, rfl⟩
  have hscalar : n < 0xD800 ∨ 0xDFFF < n ∧ n < 0x110000 := hn ▸ c.valid
  have hchar : Char.ofNat n = c := hn ▸ Char.ofNat_toNat c
  rw [String.utf8EncodeChar, hn]
  split_ifs with hone htwo hthree
  · have hlead : lead n = ([Char.ofNat n], .start) := by rw [lead, if_pos hone]
    rw [List.foldl_cons, List.foldl_nil, read_lead (by omega), hlead, hchar]
    rfl
  · have hbits : n / 64 * 64 + n % 64 = n := by omega
    rw [Nat.mod_eq_of_lt (by omega : n / 64 < 0x20), List.foldl_cons, List.foldl_cons,
      List.foldl_nil, read_lead (by omega), lead_of_two (by omega) (by omega), read_last (by omega)
      (by omega) (by omega), hbits, hchar]
    rfl
  · have hbits : (n / 4096 * 64 + n / 64 % 64) * 64 + n % 64 = n := by omega
    obtain ⟨low, high, hlead, hlow, hhigh⟩ :=
      exists_lead_of_three (n / 4096) (n / 64 % 64) (by omega) (by omega)
        (by omega) (by omega)
    rw [Nat.mod_eq_of_lt (by omega : n / 4096 < 0x10), List.foldl_cons, List.foldl_cons,
      List.foldl_cons, List.foldl_nil, read_lead (by omega), hlead, read_inner hlow hhigh (by omega),
      read_last (by omega) (by omega) (by omega), hbits, hchar]
    rfl
  · have hbits : ((n / 262144 * 64 + n / 4096 % 64) * 64 + n / 64 % 64) * 64 + n % 64 = n := by
      omega
    obtain ⟨low, high, hlead, hlow, hhigh⟩ :=
      exists_lead_of_four (n / 262144) (n / 4096 % 64) (by omega) (by omega)
        (by omega)
    rw [Nat.mod_eq_of_lt (by omega : n / 262144 < 8), List.foldl_cons, List.foldl_cons,
      List.foldl_cons, List.foldl_cons, List.foldl_nil, read_lead (by omega), hlead,
      read_inner hlow hhigh (by omega), read_inner (by omega) (by omega) (by omega),
      read_last (by omega) (by omega) (by omega), hbits, hchar]
    rfl

theorem foldl_read_flatMap (cs done : List Char) :
    (cs.flatMap String.utf8EncodeChar).foldl Decoder.read ⟨.start, done⟩ =
      ⟨.start, cs.reverse ++ done⟩ := by
  induction cs generalizing done with
  | nil => rfl
  | cons c cs ih =>
      rw [List.flatMap_cons, List.foldl_append, foldl_read_utf8EncodeChar, ih]
      simp

/-- The bytes of a text are read as the text. -/
theorem decode_encode (text : String) : decode (encode text) = text := by
  rw [decode, encode, foldl_read_flatMap, ← String.toList_inj]
  simp [Decoder.characters, State.finish]

end Utf8

/-! ### Cutting an encoded text -/

section Codes

variable {α β : Type} [DecidableEq α] [DecidableEq β] {code : α → List β} {separator : α}
  {sign : β}

/-- Whether an element is written as one sign, which occurs in no other code. -/
structure HasOwnSign (code : α → List β) (separator : α) (sign : β) : Prop where
  code_eq : code separator = [sign]
  not_mem : ∀ x, x ≠ separator → sign ∉ code x

theorem HasOwnSign.pieces_flatMap (hsign : HasOwnSign code separator sign) (xs : List α) :
    pieces sign (xs.flatMap code) = (pieces separator xs).map (·.flatMap code) := by
  induction xs with
  | nil => rfl
  | cons x xs ih =>
      by_cases hx : x = separator
      · rw [hx, List.flatMap_cons, hsign.code_eq, List.singleton_append, pieces_cons_self,
          pieces_cons_self, ih]
        rfl
      · obtain ⟨piece, rest, hpieces⟩ := List.exists_cons_of_ne_nil (pieces_ne_nil separator xs)
        rw [List.flatMap_cons, pieces_append_of_not_mem (hsign.not_mem x hx), ih,
          pieces_cons_of_ne hx, hpieces]
        rfl

theorem HasOwnSign.dropWhile_flatMap (hsign : HasOwnSign code separator sign) (xs : List α) :
    (xs.flatMap code).dropWhile (· ≠ sign) = (xs.dropWhile (· ≠ separator)).flatMap code := by
  induction xs with
  | nil => rfl
  | cons x xs ih =>
      by_cases hx : x = separator
      · simp [hx, hsign.code_eq]
      · have hfront : ∀ y ∈ code x, (y ≠ sign : Bool) = true := by
          intro y hy
          simpa using ne_of_mem_of_not_mem hy (hsign.not_mem x hx)
        rw [List.flatMap_cons, List.dropWhile_append_of_pos hfront, ih,
          List.dropWhile_cons_of_pos (by simpa using hx)]

end Codes

namespace Utf8

/-- The byte of an ASCII character occurs in no other character. -/
theorem hasOwnSign {separator : Char} {byte : UInt8} (hascii : byte.toNat ≤ 0x7F)
    (hbyte : byte.toNat = separator.toNat) :
    HasOwnSign String.utf8EncodeChar separator byte where
  code_eq := by
    have hvalue : separator.val.toNat = byte.toNat := hbyte.symm
    rw [String.utf8EncodeChar, hvalue, if_pos hascii]
    simp
  not_mem c hc := by
    have hvalue : c.val.toNat ≠ byte.toNat := by
      intro hsame
      exact hc (Char.toNat_inj.mp (hsame.trans hbyte))
    intro hmem
    rw [String.utf8EncodeChar] at hmem
    -- The one byte of an ASCII character is its value, and all other bytes are beyond ASCII.
    split_ifs at hmem <;>
      simp only [List.mem_cons, List.not_mem_nil, or_false, ← UInt8.toNat_inj,
        UInt8.toNat_ofNat'] at hmem <;>
      omega

end Utf8

end Freestanding
