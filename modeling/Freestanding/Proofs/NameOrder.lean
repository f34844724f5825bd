import Freestanding.Text.Utf8
import Mathlib.Data.List.Lex
import Mathlib.Data.List.Sort

/-!
# The order of names

Names are compared by their code points.  UTF-8 keeps this order: of two texts
the smaller one has the smaller bytes.  Lists in such an order are equal when
they hold the same.
-/

namespace Freestanding

theorem eq_of_pairwise_of_mem_iff {α : Type} {less : α → α → Prop} {xs ys : List α}
    (hasymm : ∀ x y, less x y → ¬ less y x) (hxs : xs.Pairwise less) (hys : ys.Pairwise less)
    (hmem : ∀ x, x ∈ xs ↔ x ∈ ys) : xs = ys := by
  have hirrefl : Std.Irrefl less := ⟨fun x hless => hasymm x x hless hless⟩
  have hantisymm : Std.Antisymm less :=
    ⟨fun x y hless hmore => absurd hmore (hasymm x y hless)⟩
  exact hxs.eq_of_mem_iff hys hmem

namespace Utf8

theorem utf8EncodeChar_append_lt {c d : Char} (hlt : c < d) (xs ys : List UInt8) :
    String.utf8EncodeChar c ++ xs < String.utf8EncodeChar d ++ ys := by
  have hvalue : c.val.toNat < d.val.toNat := hlt
  have hlimit : d.val.toNat < 0x110000 := by
    have hvalid := d.valid
    simp only [UInt32.isValidChar, Nat.isValidChar] at hvalid
    omega
  have hpage (n : Nat) : n / 4096 = n / 64 / 64 := by omega
  have hplane (n : Nat) : n / 262144 = n / 64 / 64 / 64 := by omega
  simp only [String.utf8EncodeChar, hpage, hplane]
  split_ifs <;>
    simp only [List.cons_append, List.nil_append, List.cons_lt_cons_iff,
      UInt8.lt_iff_toNat_lt, ← UInt8.toNat_inj, UInt8.toNat_ofNat'] <;>
    omega

theorem flatMap_utf8EncodeChar_lt {xs ys : List Char} (hlt : xs < ys) :
    xs.flatMap String.utf8EncodeChar < ys.flatMap String.utf8EncodeChar := by
  induction hlt with
  | nil =>
      rename_i d ys
      rw [List.flatMap_nil, List.flatMap_cons,
        ← List.cons_head_tail (String.utf8EncodeChar_ne_nil (c := d))]
      exact List.nil_lt_cons _ _
  | rel hless => exact utf8EncodeChar_append_lt hless _ _
  | cons _ ih => exact List.append_left_lt ih

/-- A smaller name has smaller bytes. -/
theorem encode_lt_encode {a b : String} (hlt : a < b) : encode a < encode b :=
  flatMap_utf8EncodeChar_lt (String.lt_iff.mp hlt)

end Utf8

end Freestanding
