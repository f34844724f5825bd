import Freestanding.Path
import Mathlib.Data.List.Induction

/-!
# Components of paths

The components of a path can be read off its pieces: the beginning of the path
stands for itself, and behind it the fillers are dropped.  Joining paths appends
components, and going up to a parent takes away the last one, provided that what
is joined leads down: that its components are names.
-/

namespace Freestanding

/-- Whether a component is a name, so that it leads down. -/
def Component.IsNormal (component : Component) : Prop :=
  ∃ name, component = .normal name

instance : DecidablePred Component.IsNormal
  | .normal name => isTrue ⟨name, rfl⟩
  | .root | .current | .parent => isFalse fun ⟨_, hnormal⟩ => nomatch hnormal

/-- Whether a path leads from a directory to something below it. -/
structure Path.IsPlain (path : Path) : Prop where
  ne_nil : path.components ≠ []
  normal : ∀ component ∈ path.components, component.IsNormal

instance (path : Path) : Decidable path.IsPlain :=
  decidable_of_iff (path.components ≠ [] ∧ ∀ component ∈ path.components, component.IsNormal)
    ⟨fun hplain => ⟨hplain.1, hplain.2⟩, fun hplain => ⟨hplain.ne_nil, hplain.normal⟩⟩

/-! ### Components and pieces -/

/-- The component that a piece stands for behind the beginning of a path. -/
def pieceComponent? (piece : List Char) : Option Component :=
  (Segment.ofPiece piece).component?

theorem pieceComponent?_eq_none_iff {piece : List Char} :
    pieceComponent? piece = none ↔ Path.isFiller piece = true := by
  unfold pieceComponent? Segment.ofPiece Path.isFiller
  split_ifs with hblank hhere hup <;> simp_all [Segment.component?]

/-- The component that the first piece of a path stands for. -/
def leadingComponent? (first : List Char) (rest : List (List Char)) : Option Component :=
  if first = [] then if rest = [] then none else some .root
  else if first = ['.'] then some .current
  else pieceComponent? first

def componentsOfPieces : List (List Char) → List Component
  | [] => []
  | first :: rest => (leadingComponent? first rest).toList ++ rest.filterMap pieceComponent?

theorem Path.exists_pieces_eq_cons (path : Path) : ∃ first rest, path.pieces = first :: rest :=
  List.exists_cons_of_ne_nil (pieces_ne_nil '/' path.text.toList)

theorem Path.isAbsolute_iff_pieces {path : Path} {first : List Char} {rest : List (List Char)}
    (hpieces : path.pieces = first :: rest) :
    path.isAbsolute = true ↔ first = [] ∧ rest ≠ [] := by
  unfold pieces at hpieces
  rw [isAbsolute, decide_eq_true_iff]
  cases hcharacters : path.text.toList with
  | nil =>
      rw [hcharacters, pieces_nil, List.cons.injEq] at hpieces
      simp [hpieces.2.symm]
  | cons c characters =>
      obtain ⟨next, others, hothers⟩ :=
        List.exists_cons_of_ne_nil (pieces_ne_nil '/' characters)
      rw [hcharacters] at hpieces
      by_cases hslash : c = '/'
      · subst hslash
        rw [pieces_cons_self, List.cons.injEq, hothers] at hpieces
        simp [← hpieces.1, ← hpieces.2]
      · rw [pieces_cons_of_ne hslash, hothers, List.modifyHead_cons, List.cons.injEq] at hpieces
        simp [hslash, ← hpieces.1]

theorem Path.components_eq (path : Path) : path.components = componentsOfPieces path.pieces := by
  obtain ⟨first, rest, hpieces⟩ := path.exists_pieces_eq_cons
  have habsolute := isAbsolute_iff_pieces hpieces
  have hkept (parts : List (List Char)) :
      (parts.map Segment.ofPiece).filterMap Segment.component? =
        parts.filterMap pieceComponent? := by
    rw [List.filterMap_map]
    rfl
  have hblank : pieceComponent? [] = none := rfl
  rw [components, segments, hpieces, componentsOfPieces, leadingComponent?]
  by_cases hfirst : first = []
  · by_cases hrest : rest = []
    · rw [if_neg (by simp [habsolute, hrest])]
      simp [hfirst, hrest, Segment.ofPiece, Segment.component?]
    · rw [if_pos (habsolute.mpr ⟨hfirst, hrest⟩), hkept, hfirst, List.filterMap_cons, hblank]
      simp [hrest]
  · rw [if_neg (by simp [habsolute, hfirst])]
    by_cases hhere : first = ['.']
    · simp [hhere, Segment.ofPiece, hkept]
    · rw [List.map_cons]
      have hnot : Segment.ofPiece first ≠ .here := by
        unfold Segment.ofPiece
        split_ifs <;> simp
      split
      next segments heq =>
          exact absurd (List.cons.inj heq).1 hnot
      next =>
          rw [List.filterMap_cons, if_neg hfirst, if_neg hhere, pieceComponent?]
          cases (Segment.ofPiece first).component? <;> simp [hkept]

theorem Path.components_ne_nil {path : Path} (hnonempty : path.text ≠ "") :
    path.components ≠ [] := by
  obtain ⟨first, rest, hpieces⟩ := path.exists_pieces_eq_cons
  have hleading : leadingComponent? first rest ≠ none := by
    unfold leadingComponent?
    split_ifs with hblank hlast hhere
    · intro _
      have hempty : ['/'].intercalate path.pieces = path.text.toList :=
        intercalate_pieces path.text.toList
      rw [hpieces, hblank, hlast] at hempty
      exact hnonempty (String.toList_eq_nil_iff.mp hempty.symm)
    · simp
    · simp
    · rw [ne_eq, pieceComponent?_eq_none_iff, isFiller]
      simp [hblank, hhere]
  obtain ⟨component, hcomponent⟩ := Option.ne_none_iff_exists'.mp hleading
  rw [components_eq, hpieces, componentsOfPieces, hcomponent]
  exact List.cons_ne_nil _ _

/-- Pieces put behind a path are no longer at the beginning. -/
theorem componentsOfPieces_append {front : List (List Char)} (hfront : front ≠ [])
    (hblank : front ≠ [[]]) (back : List (List Char)) :
    componentsOfPieces (front ++ back) =
      componentsOfPieces front ++ back.filterMap pieceComponent? := by
  obtain ⟨first, rest, rfl⟩ := List.exists_cons_of_ne_nil hfront
  have hleading : leadingComponent? first (rest ++ back) = leadingComponent? first rest := by
    unfold leadingComponent?
    split_ifs <;> simp_all
  rw [List.cons_append, componentsOfPieces, componentsOfPieces, hleading, List.filterMap_append,
    List.append_assoc]

/-- A blank last piece gives way to what is put behind it. -/
theorem componentsOfPieces_append_blank {front back : List (List Char)} (hfront : front ≠ [])
    (hback : back ≠ []) :
    componentsOfPieces (front ++ back) =
      componentsOfPieces (front ++ [[]]) ++ back.filterMap pieceComponent? := by
  have hnone : [[]].filterMap pieceComponent? = [] := rfl
  by_cases hblank : front = [[]]
  · subst hblank
    simp [componentsOfPieces, leadingComponent?, hback, hnone]
  · rw [componentsOfPieces_append hfront hblank, componentsOfPieces_append hfront hblank, hnone,
      List.append_nil]

theorem componentsOfPieces_of_isNormal {parts : List (List Char)}
    (hnormal : ∀ component ∈ componentsOfPieces parts, component.IsNormal) :
    componentsOfPieces parts = parts.filterMap pieceComponent? := by
  cases parts with
  | nil => rfl
  | cons first rest =>
      have hleading : leadingComponent? first rest = pieceComponent? first := by
        have hnot (component : Component)
            (hleading : leadingComponent? first rest = some component) : component.IsNormal :=
          hnormal component (List.mem_append_left _ (by simp [hleading]))
        unfold leadingComponent? at hnot ⊢
        split_ifs at hnot ⊢ with hblank hlast hhere
        · rw [hblank]
          rfl
        · simpa [Component.IsNormal] using hnot .root rfl
        · simpa [Component.IsNormal] using hnot .current rfl
        · rfl
      rw [componentsOfPieces, hleading, List.filterMap_cons]
      cases pieceComponent? first <;> rfl

/-! ### Joining -/

theorem Path.isAbsolute_eq_false_of_isNormal {path : Path}
    (hnormal : ∀ component ∈ path.components, component.IsNormal) : path.isAbsolute = false := by
  by_contra habsolute
  rw [Bool.not_eq_false] at habsolute
  have hroot : Component.root ∈ path.components := by
    rw [components, if_pos habsolute]
    exact List.mem_cons_self
  simpa [Component.IsNormal] using hnormal _ hroot

/-- Joining puts the pieces of the second path behind those of the first.  A blank
last piece of the first path gives way to them. -/
theorem Path.pieces_join {path below : Path} (hnonempty : path.text ≠ "")
    (hrelative : below.isAbsolute = false) :
    (∃ front, front ≠ [] ∧ path.pieces = front ++ [[]] ∧
        (path.join below).pieces = front ++ below.pieces) ∨
      path.pieces ≠ [[]] ∧ (path.join below).pieces = path.pieces ++ below.pieces := by
  rw [join, if_neg (by simp [hrelative])]
  rcases List.eq_nil_or_concat path.text.toList with hempty | ⟨front, last, hpath⟩
  · exact absurd (String.toList_eq_nil_iff.mp hempty) hnonempty
  · rw [List.concat_eq_append] at hpath
    by_cases hlast : last = '/'
    · subst hlast
      refine .inl ⟨Freestanding.pieces '/' front, pieces_ne_nil _ _, ?_, ?_⟩
      · rw [pieces, hpath, pieces_append_cons, pieces_nil]
      · rw [if_pos (by simp [hpath]), pieces, String.toList_append, hpath, List.append_assoc,
          List.singleton_append, pieces_append_cons]
        rfl
    · refine .inr ⟨?_, ?_⟩
      · intro hpieces
        have hempty : path.text.toList = [] := by
          rw [← intercalate_pieces path.text.toList]
          exact congrArg _ hpieces
        simp [hpath] at hempty
      · have hslash : "/".toList = ['/'] := rfl
        rw [if_neg (by simp [hpath, hlast]), pieces, String.toList_append, String.toList_append,
          hslash, List.append_assoc, List.singleton_append, pieces_append_cons]
        rfl

/-- Joining a path with one that leads down appends the components. -/
theorem Path.components_join (path : Path) {below : Path}
    (hnormal : ∀ component ∈ below.components, component.IsNormal) :
    (path.join below).components = path.components ++ below.components := by
  have hrelative := isAbsolute_eq_false_of_isNormal hnormal
  have hbelow : below.components = below.pieces.filterMap pieceComponent? := by
    rw [components_eq] at hnormal ⊢
    exact componentsOfPieces_of_isNormal hnormal
  by_cases hempty : path.text = ""
  · have hpath : path = ⟨""⟩ := by rw [← hempty]
    rw [join, if_neg (by simp [hrelative]), if_pos (by simp [hempty]), hpath, String.empty_append]
    rfl
  · rcases pieces_join hempty hrelative with ⟨front, hfront, hown, hjoined⟩ | ⟨hblank, hjoined⟩
    · rw [components_eq, components_eq path, hjoined, hown, hbelow]
      exact componentsOfPieces_append_blank hfront (pieces_ne_nil _ _)
    · rw [components_eq, components_eq path, hjoined, hbelow]
      exact componentsOfPieces_append (pieces_ne_nil _ _) hblank _

theorem Path.isNormal_of_mem_join {path below : Path}
    (hpath : ∀ component ∈ path.components, component.IsNormal)
    (hbelow : ∀ component ∈ below.components, component.IsNormal) :
    ∀ component ∈ (path.join below).components, component.IsNormal := by
  rw [path.components_join hbelow]
  exact List.forall_mem_append.mpr ⟨hpath, hbelow⟩

/-! ### Going up -/

namespace Path

theorem pieces_ofPieces {parts : List (List Char)} (hnonempty : parts ≠ [])
    (hslash : ∀ part ∈ parts, '/' ∉ part) : (ofPieces parts).pieces = parts := by
  rw [pieces, ofPieces, String.toList_ofList]
  exact pieces_intercalate hnonempty hslash

/-- What the beginning of a path stands for when something may follow it. -/
def beginningComponents (beginning : List (List Char)) : List Component :=
  if beginning = [[]] then [.root] else if beginning = [['.']] then [.current] else []

/-- How a path may begin: with a slash, with a `.`, or with a component of its
own, which is then counted among the pieces behind the beginning. -/
structure HasBeginning (beginning parts : List (List Char)) : Prop where
  known : beginning ∈ [[], [[]], [['.']]]
  first : beginning = [] → ∀ part, parts.head? = some part → isFiller part = false
  slash : ∀ part ∈ parts, '/' ∉ part

theorem HasBeginning.of_isPrefix {beginning parts kept : List (List Char)}
    (hbeginning : HasBeginning beginning parts) (hkept : kept <+: parts) :
    HasBeginning beginning kept where
  known := hbeginning.known
  first hempty part hpart := by
    obtain ⟨back, rfl⟩ := hkept
    refine hbeginning.first hempty part ?_
    rw [List.head?_append, hpart, Option.some_or]
  slash part hpart := hbeginning.slash part (hkept.mem hpart)

theorem HasBeginning.components_ofKept {beginning kept : List (List Char)}
    (hbeginning : HasBeginning beginning kept) :
    (ofKept beginning kept).components =
      beginningComponents beginning ++ kept.filterMap pieceComponent? := by
  have hslash := hbeginning.slash
  have hcases := hbeginning.known
  simp only [List.mem_cons, List.not_mem_nil, or_false] at hcases
  rcases hcases with rfl | rfl | rfl
  · cases kept with
    | nil => rfl
    | cons first rest =>
        have hpieces : (ofKept [] (first :: rest)).pieces = first :: rest :=
          pieces_ofPieces (List.cons_ne_nil _ _) hslash
        have hfirst := hbeginning.first rfl first rfl
        simp only [isFiller, Bool.or_eq_false_iff, decide_eq_false_iff_not] at hfirst
        rw [components_eq, hpieces, componentsOfPieces, leadingComponent?, if_neg hfirst.1,
          if_neg hfirst.2, List.filterMap_cons]
        cases pieceComponent? first <;> rfl
  · by_cases hkept : kept = []
    · subst hkept
      rfl
    · have hpieces : (ofKept [[]] kept).pieces = [] :: kept := by
        rw [ofKept, if_neg (by simp [hkept])]
        exact pieces_ofPieces (List.cons_ne_nil _ _) (List.forall_mem_cons.mpr ⟨by simp, hslash⟩)
      rw [components_eq, hpieces, componentsOfPieces, leadingComponent?, if_pos rfl, if_neg hkept]
      rfl
  · have hpieces : (ofKept [['.']] kept).pieces = ['.'] :: kept :=
      pieces_ofPieces (List.cons_ne_nil _ _) (List.forall_mem_cons.mpr ⟨by simp, hslash⟩)
    rw [components_eq, hpieces, componentsOfPieces]
    rfl

theorem filterMap_dropWhile_isFiller (parts : List (List Char)) :
    (parts.reverse.dropWhile isFiller).reverse.filterMap pieceComponent? =
      parts.filterMap pieceComponent? := by
  induction parts using List.reverseRecOn with
  | nil => rfl
  | append_singleton above part ih =>
      rw [List.reverse_append, List.reverse_singleton, List.singleton_append]
      by_cases hfiller : isFiller part = true
      · rw [List.dropWhile_cons_of_pos hfiller, ih, List.filterMap_append]
        simp [pieceComponent?_eq_none_iff.mpr hfiller]
      · rw [List.dropWhile_cons_of_neg hfiller, List.reverse_cons, List.reverse_reverse]

/-- The nearest parent has the components of the path without the last one, and
the others have no more. -/
theorem HasBeginning.components_parentsBehind {beginning parts : List (List Char)}
    (hbeginning : HasBeginning beginning parts) :
    (∀ parent ∈ parentsBehind beginning parts.reverse, parent.components <+:
        (beginningComponents beginning ++ parts.filterMap pieceComponent?).dropLast) ∧
      ∀ parent, (parentsBehind beginning parts.reverse).head? = some parent →
        parent.components =
          (beginningComponents beginning ++ parts.filterMap pieceComponent?).dropLast := by
  -- From the last piece on, as `parentsBehind` goes up.
  induction parts using List.reverseRecOn with
  | nil =>
      have hempty : (Path.mk "").components = [] := rfl
      rw [List.reverse_nil]
      unfold parentsBehind
      split_ifs with hhere
      · simp [hempty, hhere, beginningComponents]
      · simp
  | append_singleton above part ih =>
      have habove : above <+: above ++ [part] := List.prefix_append _ _
      have hrest := ih (hbeginning.of_isPrefix habove)
      rw [List.reverse_append, List.reverse_singleton, List.singleton_append,
        List.filterMap_append]
      unfold parentsBehind
      split_ifs with hfiller
      · simpa [pieceComponent?_eq_none_iff.mpr hfiller] using hrest
      · obtain ⟨component, hcomponent⟩ : ∃ component, pieceComponent? part = some component :=
          Option.ne_none_iff_exists'.mp (mt pieceComponent?_eq_none_iff.mp hfiller)
        have hnearest : (ofKept beginning (above.reverse.dropWhile isFiller).reverse).components =
            beginningComponents beginning ++ above.filterMap pieceComponent? := by
          have hkept : (above.reverse.dropWhile isFiller).reverse <+: above.reverse.reverse :=
            List.reverse_prefix.mpr (List.dropWhile_suffix _)
          rw [List.reverse_reverse] at hkept
          rw [(hbeginning.of_isPrefix (hkept.trans habove)).components_ofKept,
            filterMap_dropWhile_isFiller]
        rw [List.filterMap_cons, hcomponent, List.filterMap_nil, ← List.append_assoc,
          List.dropLast_concat]
        constructor
        · intro parent hparent
          rcases List.mem_cons.mp hparent with rfl | hparent
          · exact hnearest ▸ List.prefix_rfl
          · exact (hrest.1 parent hparent).trans (List.dropLast_prefix _)
        · intro parent hparent
          obtain rfl := Option.some.inj hparent
          exact hnearest

theorem exists_parentsBehind (path : Path) : path.parents = [] ∨
    ∃ beginning parts, path.parents = parentsBehind beginning parts.reverse ∧
      HasBeginning beginning parts ∧ path.components =
        beginningComponents beginning ++ parts.filterMap pieceComponent? := by
  have hslash (piece : List Char) (hpiece : piece ∈ path.pieces) : '/' ∉ piece :=
    not_mem_of_mem_pieces hpiece
  have hcomponents := path.components_eq
  unfold parents
  split
  next piece rest hpieces =>
      rw [hpieces] at hcomponents hslash
      refine .inr ⟨[[]], _, rfl, ⟨by simp, by simp, ?_⟩, hcomponents⟩
      exact fun part hpart => hslash part (List.mem_cons_of_mem _ hpart)
  next rest hpieces =>
      rw [hpieces] at hcomponents hslash
      refine .inr ⟨[['.']], _, rfl, ⟨by simp, by simp, ?_⟩, hcomponents⟩
      exact fun part hpart => hslash part (List.mem_cons_of_mem _ hpart)
  next hlong hhere =>
      obtain ⟨first, rest, hpieces⟩ := path.exists_pieces_eq_cons
      rw [hpieces] at hcomponents hslash hlong hhere ⊢
      by_cases hfirst : isFiller first = true
      · -- Of the paths left, only the empty one begins with a filler.
        left
        have hblank : first = [] := by
          simp only [isFiller, Bool.or_eq_true, decide_eq_true_eq] at hfirst
          exact hfirst.resolve_right fun hsame => hhere rest (by rw [hsame])
        cases rest with
        | nil =>
            rw [hblank]
            rfl
        | cons piece rest => exact absurd (by rw [hblank]) (hlong piece rest)
      · refine .inr ⟨[], _, rfl, ⟨by simp, ?_, hslash⟩, hcomponents.trans ?_⟩
        · intro _ part hpart
          rw [List.head?_cons, Option.some.injEq] at hpart
          rw [← hpart]
          exact Bool.not_eq_true _ ▸ hfirst
        · simp only [isFiller, Bool.or_eq_true, decide_eq_true_eq, not_or] at hfirst
          rw [componentsOfPieces, leadingComponent?, if_neg hfirst.1, if_neg hfirst.2,
            List.filterMap_cons]
          cases pieceComponent? first <;> rfl

theorem components_of_mem_parents {path parent : Path} (hparent : parent ∈ path.parents) :
    parent.components <+: path.components.dropLast := by
  rcases path.exists_parentsBehind with hnone | ⟨beginning, parts, hparents, hbeginning, hpath⟩
  · simp [hnone] at hparent
  · rw [hparents] at hparent
    rw [hpath]
    exact hbeginning.components_parentsBehind.1 parent hparent

theorem components_of_parent? {path parent : Path} (hparent : path.parent? = some parent) :
    parent.components = path.components.dropLast := by
  rw [parent?] at hparent
  rcases path.exists_parentsBehind with hnone | ⟨beginning, parts, hparents, hbeginning, hpath⟩
  · simp [hnone] at hparent
  · rw [hparents] at hparent
    rw [hpath]
    exact hbeginning.components_parentsBehind.2 parent hparent

end Path

end Freestanding
