import Freestanding.Proofs.Directives
import Freestanding.Proofs.FirstOccurrences

/-!
# Scanning bytes line by line

Decoding finds a line feed exactly where the bytes hold one, however malformed
they are.  So the lines of a header can be decoded one by one, and the names
that it includes are those that its lines include.  Whether a line feed stands
behind a carriage return makes no difference to the name that a line includes.
-/

namespace Freestanding

theorem ofNat_ne_newline {n : Nat} (hn : n ≠ 10) : Char.ofNat n ≠ '\n' := by
  intro hchar
  by_cases hvalid : n.isValidChar
  · rw [Char.ofNat, dif_pos hvalid] at hchar
    exact hn (congrArg Char.toNat hchar)
  · rw [Char.ofNat, dif_neg hvalid] at hchar
    revert hchar
    decide

namespace Utf8

/-- Whether the character at hand, once it is complete, is no ASCII character. -/
def State.IsBeyondAscii : State → Prop
  | .start => True
  | .inside more low _ value => 1 ≤ value ∨ 1 ≤ more ∧ 1 ≤ low

theorem isBeyondAscii_lead (byte : Nat) : (lead byte).2.IsBeyondAscii := by
  unfold lead
  split_ifs
  · trivial
  · exact .inl (by omega)
  · exact .inr (by omega)
  · exact .inl (by omega)
  · exact .inl (by omega)
  · exact .inr (by omega)
  · exact .inl (by omega)
  · exact .inl (by omega)
  · trivial

theorem newline_not_mem_lead {byte : Nat} (hbyte : byte ≠ 10) : '\n' ∉ (lead byte).1 := by
  unfold lead
  split_ifs <;> simp [(ofNat_ne_newline hbyte).symm, replacement]

theorem newline_not_mem_step {state : State} (hstate : state.IsBeyondAscii) {byte : Nat}
    (hbyte : byte ≠ 10) :
    '\n' ∉ (state.step byte).1 ∧ (state.step byte).2.IsBeyondAscii := by
  cases state with
  | start => exact ⟨newline_not_mem_lead hbyte, isBeyondAscii_lead byte⟩
  | inside more low high value =>
      simp only [State.step]
      split_ifs with hcontinues
      · cases more with
        | zero =>
            have hvalue : 1 ≤ value := hstate.resolve_right (by omega)
            have hbeyond : value * 64 + (byte - 0x80) ≠ 10 := by omega
            exact ⟨by simpa using (ofNat_ne_newline hbeyond).symm, trivial⟩
        | succ more =>
            refine ⟨by simp, .inl ?_⟩
            rcases hstate with hvalue | ⟨-, hlow⟩ <;> omega
      · refine ⟨?_, isBeyondAscii_lead byte⟩
        simpa [replacement] using newline_not_mem_lead hbyte

theorem newline_not_mem_foldl_read {bytes : List UInt8} (hbytes : 0x0A ∉ bytes)
    {decoder : Decoder} (hstate : decoder.state.IsBeyondAscii) (hdone : '\n' ∉ decoder.done) :
    '\n' ∉ (bytes.foldl Decoder.read decoder).characters := by
  induction bytes generalizing decoder with
  | nil =>
      have hfinish : '\n' ∉ decoder.state.finish := by
        cases decoder.state <;> simp [State.finish, replacement]
      simp [Decoder.characters, hfinish, hdone]
  | cons byte bytes ih =>
      rw [List.mem_cons, not_or] at hbytes
      have hbyte : byte.toNat ≠ 10 := fun hnat => hbytes.1 (UInt8.toNat_inj.mp hnat.symm)
      obtain ⟨hcharacters, hnext⟩ := newline_not_mem_step hstate hbyte
      refine ih hbytes.2 hnext ?_
      simp [Decoder.read, hcharacters, hdone]

theorem newline_not_mem_decode {bytes : List UInt8} (hbytes : 0x0A ∉ bytes) :
    '\n' ∉ (decode bytes).toList := by
  rw [decode, String.toList_ofList]
  exact newline_not_mem_foldl_read hbytes trivial (by simp)

theorem decode_intercalate (lines : List (List UInt8)) :
    (decode ([0x0A].intercalate lines)).toList =
      ['\n'].intercalate (lines.map fun line => (decode line).toList) := by
  induction lines with
  | nil => rfl
  | cons line rest ih =>
      cases rest with
      | nil => simp
      | cons next rest =>
          rw [List.intercalate_cons_cons, List.append_assoc, List.singleton_append,
            decode_append_ascii (by decide), String.toList_append, String.toList_append, ih]
          simp

/-- The lines of any bytes are decoded one by one. -/
theorem pieces_decode (bytes : List UInt8) :
    pieces '\n' (decode bytes).toList =
      (pieces 0x0A bytes).map fun line => (decode line).toList := by
  have hlines : ∀ line ∈ (pieces 0x0A bytes).map fun line => (decode line).toList,
      '\n' ∉ line := by
    intro line hline
    obtain ⟨piece, hpiece, rfl⟩ := List.mem_map.mp hline
    exact newline_not_mem_decode (not_mem_of_mem_pieces hpiece)
  calc
    pieces '\n' (decode bytes).toList
      = pieces '\n' (decode ([0x0A].intercalate (pieces 0x0A bytes))).toList := by
          rw [intercalate_pieces]
    _ = pieces '\n' (['\n'].intercalate
          ((pieces 0x0A bytes).map fun line => (decode line).toList)) := by
          rw [decode_intercalate]
    _ = (pieces 0x0A bytes).map fun line => (decode line).toList :=
          pieces_intercalate (by simp [pieces_ne_nil]) hlines

theorem decode_cons_ascii {byte : UInt8} (hbyte : byte.toNat ≤ 0x7F) (bytes : List UInt8) :
    (decode (byte :: bytes)).toList =
      Char.ofNat byte.toNat :: (decode bytes).toList := by
  have happend := decode_append_ascii hbyte [] bytes
  have hempty : (decode []).toList = [] := rfl
  rw [List.nil_append] at happend
  simp [happend, hempty]

end Utf8

/-- The name that a line of bytes includes. -/
def lineName? (line : List UInt8) : Option (List Char) :=
  includedName? (Utf8.decode line).toList

theorem dependencies_eq (contents : List UInt8) :
    dependencies contents =
      ((pieces 0x0A contents).filterMap fun line =>
        (lineName? line).map String.ofList).eraseDups := by
  unfold dependencies includes lines
  rw [filterMap_linesOfPieces, Utf8.pieces_decode, List.filterMap_map,
    ← eraseDups_map_of_injective fun _ _ => String.ofList_inj.mp, List.map_filterMap]
  rfl

end Freestanding
