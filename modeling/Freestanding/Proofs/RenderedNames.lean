import Freestanding.Proofs.IncludedNames

/-!
# Directives written for names

A list of names is written as a text of directives, one line for each name.
Scanning the text gives the names back, without later repeats, exactly if none of
them is empty, begins or ends with a blank, or holds a line feed or the bracket
that closes a directive.  Anything else may stand in a name, even another
directive.

All names that are scanned in any text are such names.  So what a text includes
can be written down as directives, and is found again in them.
-/

namespace Freestanding

/-! ### Names of headers -/

/-- Whether a text can be the name that a directive includes. -/
structure IsHeaderName (name : String) : Prop where
  ne_empty : name ≠ ""
  feed : '\n' ∉ name.toList
  bracket : '>' ∉ name.toList
  head : name.toList.head?.all (! isBlank ·) = true
  last : name.toList.getLast?.all (! isBlank ·) = true

instance : DecidablePred IsHeaderName := fun name =>
  decidable_of_iff
    (name ≠ "" ∧ '\n' ∉ name.toList ∧ '>' ∉ name.toList ∧
      name.toList.head?.all (! isBlank ·) = true ∧ name.toList.getLast?.all (! isBlank ·) = true)
    ⟨fun ⟨hne, hfeed, hbracket, hhead, hlast⟩ => ⟨hne, hfeed, hbracket, hhead, hlast⟩,
      fun hname => ⟨hname.ne_empty, hname.feed, hname.bracket, hname.head, hname.last⟩⟩

theorem HasLines.newline_not_mem {text : List Char} {parts : List (List Char)}
    (hparts : HasLines text parts) : ∀ line ∈ parts, '\n' ∉ line := by
  induction hparts with
  | nil => simp
  | last hline => simpa using hline
  | feed hline _ _ ih => exact List.forall_mem_cons.mpr ⟨hline, ih⟩
  | returnFeed hline _ ih => exact List.forall_mem_cons.mpr ⟨hline, ih⟩

theorem LineIncludes.isHeaderName {line : List Char} {name : String}
    (hincludes : LineIncludes line name) (hline : '\n' ∉ line) : IsHeaderName name := by
  obtain ⟨⟨front, back, -, -, hdirective⟩, hne, hhead, hlast⟩ := lineIncludes_iff.mp hincludes
  obtain ⟨before, between, behind, rest, -, -, -, hbracket, rfl⟩ := hdirective
  have hfeed : '\n' ∉ name.toList := by
    intro hmem
    simp [hmem] at hline
  have hbracketName : '>' ∉ name.toList := by
    intro hmem
    simp [hmem] at hbracket
  exact ⟨hne, hfeed, hbracketName, hhead, hlast⟩

theorem isHeaderName_of_mem_includes {text name : String} (hname : name ∈ includes text) :
    IsHeaderName name := by
  rw [includes_eq, List.mem_eraseDups, List.mem_filterMap] at hname
  obtain ⟨line, hline, hfound⟩ := hname
  exact (directiveName?_eq_some_iff.mp hfound).isHeaderName
    ((hasLines_iff.mpr rfl).newline_not_mem line hline)

/-! ### Directives -/

/-- The line of a text that includes a name. -/
def directive (name : String) : String :=
  "#include <" ++ name ++ ">\n"

def directives (names : List String) : String :=
  String.join (names.map directive)

theorem directiveName?_directive {name : String} (hname : IsHeaderName name) :
    directiveName? ("#include <".toList ++ name.toList ++ ['>']) = some name := by
  have hdirective : IsDirective ("#include <".toList ++ name.toList ++ ['>']) name.toList :=
    ⟨[], [], [' '], [], List.forall_mem_nil _, List.forall_mem_nil _,
      List.forall_mem_singleton.mpr rfl, hname.bracket, by simp⟩
  rw [directiveName?_eq_some_iff, lineIncludes_iff]
  refine ⟨⟨[], [], List.forall_mem_nil _, List.forall_mem_nil _, ?_⟩, hname.ne_empty, hname.head,
    hname.last⟩
  rw [List.nil_append, List.append_nil]
  exact hdirective

theorem lines_directive_append {name : String} (hfeed : '\n' ∉ name.toList) (rest : List Char) :
    lines ((directive name).toList ++ rest) =
      ("#include <".toList ++ name.toList ++ ['>']) :: lines rest := by
  have hline : '\n' ∉ "#include <".toList ++ name.toList ++ ['>'] := by simp [hfeed]
  have hend : ("#include <".toList ++ name.toList ++ ['>']).getLast? ≠ some '\r' := by
    rw [List.getLast?_concat]
    decide
  have hlines := lines_append_newline hline rest
  rw [dropFinalReturn_of_getLast?_ne hend] at hlines
  rw [← hlines]
  simp [directive]

theorem filterMap_lines_directives {names : List String}
    (hnames : ∀ name ∈ names, IsHeaderName name) :
    (lines (directives names).toList).filterMap directiveName? = names := by
  induction names with
  | nil => rfl
  | cons name rest ih =>
      obtain ⟨hname, hrest⟩ := List.forall_mem_cons.mp hnames
      have hjoin : (directives (name :: rest)).toList =
          (directive name).toList ++ (directives rest).toList := by
        simp [directives]
      rw [hjoin, lines_directive_append hname.feed,
        List.filterMap_cons_some (directiveName?_directive hname), ih hrest]

theorem includes_directives {names : List String} (hnames : ∀ name ∈ names, IsHeaderName name) :
    includes (directives names) = names.eraseDups := by
  rw [includes_eq, filterMap_lines_directives hnames]

/-- Scanning undoes the writing of directives, but for later repeats, exactly for
lists of names that can be included.  All names that are scanned in a text are
such names, so that the directives written for them are scanned as the same
names. -/
theorem includes_directives_isInverse (names : List String) :
    ((∀ name ∈ names, IsHeaderName name) ↔ includes (directives names) = names.eraseDups) ∧
      ∀ text, (∀ name ∈ includes text, IsHeaderName name) ∧
        includes (directives (includes text)) = includes text := by
  refine ⟨⟨includes_directives, ?_⟩, fun text => ⟨fun _ => isHeaderName_of_mem_includes, ?_⟩⟩
  · intro hscanned name hname
    have hfound : name ∈ includes (directives names) := by
      rwa [hscanned, List.mem_eraseDups]
    exact isHeaderName_of_mem_includes hfound
  · have hnodup : (includes text).Nodup := includes_eq text ▸ nodup_eraseDups _
    rw [includes_directives fun _ => isHeaderName_of_mem_includes, eraseDups_eq_self hnodup]

theorem includes_directives_isInverse_nested :
    (∀ name ∈ ["#include <b", "c\r \x00d", "#include <b", "<"], IsHeaderName name) ∧
      includes (directives ["#include <b", "c\r \x00d", "#include <b", "<"]) =
        ["#include <b", "c\r \x00d", "<"] := by
  have hnames : ∀ name ∈ ["#include <b", "c\r \x00d", "#include <b", "<"], IsHeaderName name := by
    decide
  exact ⟨hnames, (includes_directives_isInverse _).1.mp hnames⟩

end Freestanding
