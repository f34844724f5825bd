import Freestanding.Proofs.ConfiguredHeader
import Freestanding.Proofs.EncodedText

/-!
# Configured texts

A configuration header can be given as a text.  It is configured in its encoding,
and the bytes are read as a text again.  The bytes that a setting replaces begin
where a line begins and end with the line or at a carriage return, and so they
begin and end between two characters, whatever character follows the name of the
macro.  What is written instead is ASCII.

Therefore the configured bytes are the encoding of a text, which is the configured
text, and no character is lost or replaced in what the settings leave.
-/

namespace Freestanding

/-! ### Lines of text -/

def encodedLine (line : List Char) : List UInt8 :=
  Utf8.encode (String.ofList line)

/-- What the settings write at the beginning of a line. -/
def writtenPart (line : List Char) : List Char :=
  if visibility.IsDefinedIn (encodedLine line) then
    "# define _GLIBCXX_HAVE_ATTRIBUTE_VISIBILITY 1".toList
  else if inlineVersion.IsDefinedIn (encodedLine line) then
    "# define _GLIBCXX_INLINE_VERSION 0".toList
  else []

/-- What the settings leave of a line. -/
def keptPart (line : List Char) : List Char :=
  if visibility.IsDefinedIn (encodedLine line) ∨ inlineVersion.IsDefinedIn (encodedLine line) then
    line.dropWhile (· ≠ '\r')
  else line

def configureTextLine (line : List Char) : List Char :=
  writtenPart line ++ keptPart line

theorem encodedLine_eq_flatMap (line : List Char) :
    encodedLine line = line.flatMap String.utf8EncodeChar := by
  rw [encodedLine, Utf8.encode, String.toList_ofList]

theorem encodedLine_toList (text : String) : encodedLine text.toList = Utf8.encode text := by
  rw [encodedLine, String.ofList_toList]

theorem encodedLine_append (front back : List Char) :
    encodedLine (front ++ back) = encodedLine front ++ encodedLine back := by
  rw [encodedLine, String.ofList_append, Utf8.encode_append, encodedLine, encodedLine]

theorem dropWhile_encodedLine (line : List Char) :
    (encodedLine line).dropWhile (· ≠ 0x0D) = encodedLine (line.dropWhile (· ≠ '\r')) := by
  have hreturn : HasOwnSign String.utf8EncodeChar '\r' 0x0D := Utf8.hasOwnSign (by decide) rfl
  rw [encodedLine_eq_flatMap, hreturn.dropWhile_flatMap, encodedLine_eq_flatMap]

theorem pieces_encode (text : String) :
    pieces 0x0A (Utf8.encode text) = (pieces '\n' text.toList).map encodedLine := by
  have hfeed : HasOwnSign String.utf8EncodeChar '\n' 0x0A := Utf8.hasOwnSign (by decide) rfl
  rw [Utf8.encode, hfeed.pieces_flatMap]
  exact List.map_congr_left fun line _ => (encodedLine_eq_flatMap line).symm

theorem configureLine_encodedLine (line : List Char) :
    configureLine (encodedLine line) = encodedLine (configureTextLine line) := by
  unfold configureLine configureTextLine writtenPart keptPart
  by_cases hvisibility : visibility.IsDefinedIn (encodedLine line)
  · simp only [hvisibility, if_true, true_or, encodedLine_append, encodedLine_toList,
      dropWhile_encodedLine]
  by_cases hversion : inlineVersion.IsDefinedIn (encodedLine line)
  · simp only [hvisibility, hversion, if_true, if_false, or_true, encodedLine_append,
      encodedLine_toList, dropWhile_encodedLine]
  · simp only [hvisibility, hversion, if_false, or_self, List.nil_append]

theorem newline_not_mem_configureTextLine {line : List Char} (hline : '\n' ∉ line) :
    '\n' ∉ configureTextLine line := by
  unfold configureTextLine writtenPart keptPart
  rw [List.mem_append, not_or]
  constructor
  · split_ifs <;> decide
  · split_ifs
    · exact fun hmem => hline ((List.dropWhile_suffix _).mem hmem)
    · exact hline

theorem newline_not_mem_of_mem_configuredLines (text : String) :
    ∀ line ∈ (pieces '\n' text.toList).map configureTextLine, '\n' ∉ line := by
  intro line hline
  obtain ⟨piece, hpiece, rfl⟩ := List.mem_map.mp hline
  exact newline_not_mem_configureTextLine (not_mem_of_mem_pieces hpiece)

/-! ### Texts -/

/-- The configured bytes of a text are those of its configured lines. -/
theorem configure_encode (text : String) :
    configure (Utf8.encode text) =
      Utf8.encode (String.ofList
        (['\n'].intercalate ((pieces '\n' text.toList).map configureTextLine))) := by
  have hlines := newline_not_mem_of_mem_configuredLines text
  have hline : configureLine ∘ encodedLine = encodedLine ∘ configureTextLine := by
    funext line
    rw [Function.comp_apply, Function.comp_apply, configureLine_encodedLine]
  apply eq_of_pieces_eq 0x0A
  rw [pieces_configure, pieces_encode, pieces_encode, String.toList_ofList,
    pieces_intercalate (by simp [pieces_ne_nil]) hlines, List.map_map, List.map_map, hline]

theorem configureText_eq (text : String) :
    configureText text =
      String.ofList (['\n'].intercalate ((pieces '\n' text.toList).map configureTextLine)) := by
  rw [configureText, configure_encode, Utf8.decode_encode]

theorem count_intercalate_of_ne {α : Type} [DecidableEq α] {separator x : α} (hx : x ≠ separator)
    (parts : List (List α)) :
    ([separator].intercalate parts).count x = parts.flatten.count x := by
  induction parts with
  | nil => rfl
  | cons part rest ih =>
      cases rest with
      | nil => simp
      | cons next rest =>
          rw [List.intercalate_cons_cons, List.flatten_cons, List.count_append, List.count_append,
            List.count_append, ih, List.count_singleton]
          simp [hx.symm]

theorem count_replacement_configureTextLine (line : List Char) :
    (configureTextLine line).count Utf8.replacement = (keptPart line).count Utf8.replacement := by
  have hwritten : (writtenPart line).count Utf8.replacement = 0 := by
    unfold writtenPart
    split_ifs <;> decide
  rw [configureTextLine, List.count_append, hwritten, Nat.zero_add]

/-- A text is configured as its encoding is: the configured bytes are the encoding
of the configured text.  In particular they encode a text.  Each line of the
configured text consists of what the settings have written and what they have
left of the line.  So it holds as many replacement characters as there have been
in the parts that are left. -/
theorem encode_configureText (text : String) :
    Utf8.encode (configureText text) = configure (Utf8.encode text) ∧
      (configure (Utf8.encode text)).toByteArray.IsValidUTF8 ∧
      pieces '\n' (configureText text).toList =
        (pieces '\n' text.toList).map configureTextLine ∧
      (configureText text).toList.count Utf8.replacement =
        ((pieces '\n' text.toList).flatMap keptPart).count Utf8.replacement := by
  have hencode : Utf8.encode (configureText text) = configure (Utf8.encode text) := by
    rw [configureText_eq, configure_encode]
  have hlines := newline_not_mem_of_mem_configuredLines text
  refine ⟨hencode, ?_, ?_, ?_⟩
  · exact ⟨(configureText text).toList, by rw [← hencode]; rfl⟩
  · rw [configureText_eq, String.toList_ofList, pieces_intercalate (by simp [pieces_ne_nil]) hlines]
  · have hcount : List.count Utf8.replacement ∘ configureTextLine =
        List.count Utf8.replacement ∘ keptPart := by
      funext line
      rw [Function.comp_apply, Function.comp_apply, count_replacement_configureTextLine]
    rw [configureText_eq, String.toList_ofList, count_intercalate_of_ne (by decide),
      ← List.flatMap_def, List.count_flatMap, List.count_flatMap, hcount]

example : configureText "#define _GLIBCXX_INLINE_VERSIONé 1\r\n�" =
    "# define _GLIBCXX_INLINE_VERSION 0\r\n�" := by
  decide +kernel

end Freestanding
