import Freestanding.Proofs.RootedPaths

/-!
# Paths that end with a name

Only a path whose last piece is a name can be the path of a file.  The parents of
such a path are its nearest parent and the parents of that one, and the nearest
parent ends with a name again, unless it is empty.

A path of names ends with one, unless it ends with a slash or with a dot behind a
slash.
-/

namespace Freestanding

theorem intercalate_isPrefix {α : Type} {separator : α} {parts more : List (List α)}
    (hinitial : parts <+: more) :
    [separator].intercalate parts <+: [separator].intercalate more := by
  induction parts generalizing more with
  | nil => exact List.nil_prefix
  | cons part rest ih =>
      obtain ⟨back, rfl⟩ := hinitial
      cases rest with
      | nil => cases back <;> simp [List.intercalate]
      | cons next others =>
          have hrest := ih (List.prefix_append (next :: others) back)
          rw [List.cons_append, List.cons_append, List.intercalate_cons_cons,
            List.intercalate_cons_cons, ← List.cons_append]
          exact (List.prefix_append_right_inj _).mpr hrest

/-- Whether a component is no longer than a name may be. -/
def Component.IsShort : Component → Prop
  | .normal text => text.utf8ByteSize ≤ nameLimit
  | _ => True

instance : DecidablePred Component.IsShort
  | .normal text => inferInstanceAs (Decidable (text.utf8ByteSize ≤ nameLimit))
  | .root | .current | .parent => .isTrue trivial

namespace Path

/-- Whether the last piece of a path is a name. -/
def EndsNamed (path : Path) : Prop :=
  ∃ front text, path.segments = front ++ [.named text]

variable {path parent below : Path}

/-! ### Parents -/

theorem parent?_of_parents {parents : List Path} (hparents : path.parents = parent :: parents) :
    path.parent? = some parent := by
  rw [parent?, hparents]
  rfl

theorem parentsBehind_dropWhile (beginning reversed : List (List Char)) :
    parentsBehind beginning (reversed.dropWhile isFiller) = parentsBehind beginning reversed := by
  induction reversed with
  | nil => rfl
  | cons piece above ih =>
      by_cases hfiller : isFiller piece = true
      · rw [List.dropWhile_cons_of_pos hfiller, ih]
        conv_rhs => rw [parentsBehind, if_pos hfiller]
      · rw [List.dropWhile_cons_of_neg hfiller]

theorem parents_of_isNormal (hnormal : ∀ component ∈ path.components, component.IsNormal) :
    path.parents = parentsBehind [] path.pieces.reverse := by
  have hcomponents := path.components_eq
  unfold parents
  split
  next piece rest hpieces =>
      rw [hpieces, componentsOfPieces, leadingComponent?, if_pos rfl,
        if_neg (List.cons_ne_nil _ _)] at hcomponents
      have hroot := hnormal .root (by simp [hcomponents])
      simp [Component.IsNormal] at hroot
  next rest hpieces =>
      have hcurrent := hnormal .current (by
        rw [hcomponents, hpieces]
        exact List.mem_cons_self)
      simp [Component.IsNormal] at hcurrent
  next => rfl

theorem exists_piece_of_endsNamed (hends : path.EndsNamed) :
    ∃ front last, path.pieces = front ++ [last] ∧ isFiller last = false := by
  obtain ⟨front, text, hsegments⟩ := hends
  obtain ⟨above, behind, hpieces, -, hbehind⟩ := List.map_eq_append_iff.mp hsegments
  obtain ⟨last, rfl, hlast⟩ := List.map_eq_singleton_iff.mp hbehind
  refine ⟨above, last, hpieces, ?_⟩
  rw [← Bool.not_eq_true, ← pieceComponent?_eq_none_iff, pieceComponent?, hlast]
  simp [Segment.component?]

theorem endsNamed_of_pieces (hup : .up ∉ path.segments) {front : List (List Char)}
    {last : List Char} (hpieces : path.pieces = front ++ [last])
    (hlast : isFiller last = false) : path.EndsNamed := by
  have hsegments : path.segments = front.map Segment.ofPiece ++ [Segment.ofPiece last] := by
    rw [segments, hpieces, List.map_append]
    rfl
  simp only [isFiller, Bool.or_eq_false_iff, decide_eq_false_iff_not] at hlast
  have hnamed : Segment.ofPiece last = .named (String.ofList last) := by
    unfold Segment.ofPiece at hsegments ⊢
    rw [if_neg hlast.1, if_neg hlast.2] at hsegments ⊢
    refine if_neg fun hparent => hup ?_
    rw [hsegments, if_pos hparent]
    exact List.mem_append_right _ List.mem_cons_self
  exact ⟨_, _, hsegments.trans (by rw [hnamed])⟩

/-- The parents of a path that ends with a name are its nearest parent, which is
the beginning of the path and ends with a name too or is empty, and the parents
of that one. -/
theorem EndsNamed.exists_parent (hends : path.EndsNamed)
    (hnormal : ∀ component ∈ path.components, component.IsNormal) :
    ∃ parent, path.parents = parent :: parent.parents ∧
      parent.text.toList <+: path.text.toList ∧
        (∀ component ∈ parent.components, component.IsNormal) ∧
          (parent.text ≠ "" → parent.EndsNamed) := by
  obtain ⟨front, last, hpieces, hlast⟩ := exists_piece_of_endsNamed hends
  have hparents : path.parents =
      ofPieces (front.reverse.dropWhile isFiller).reverse :: parentsBehind [] front.reverse := by
    rw [parents_of_isNormal hnormal, hpieces, List.reverse_append, List.reverse_singleton,
      List.singleton_append, parentsBehind, if_neg (by simp [hlast])]
    rfl
  generalize hkept : (front.reverse.dropWhile isFiller).reverse = kept at hparents
  have hdropped : front.reverse.dropWhile isFiller = kept.reverse := by
    rw [← hkept, List.reverse_reverse]
  have hinitial : kept <+: path.pieces := by
    have hfront : kept <+: front.reverse.reverse := by
      rw [← hkept]
      exact List.reverse_prefix.mpr (List.dropWhile_suffix _)
    rw [List.reverse_reverse] at hfront
    rw [hpieces]
    exact hfront.trans (List.prefix_append _ _)
  have hparent : path.parent? = some (ofPieces kept) := parent?_of_parents hparents
  have hdown : ∀ component ∈ (ofPieces kept).components, component.IsNormal := by
    rw [components_of_parent? hparent]
    exact fun component hcomponent => hnormal component (List.dropLast_subset _ hcomponent)
  have hbehind : parentsBehind [] front.reverse = parentsBehind [] kept.reverse := by
    rw [← hdropped, parentsBehind_dropWhile]
  have htext : (ofPieces kept).text.toList <+: path.text.toList := by
    rw [ofPieces, String.toList_ofList, ← intercalate_pieces path.text.toList]
    exact intercalate_isPrefix hinitial
  refine ⟨ofPieces kept, ?_, htext, hdown, ?_⟩
  · rw [hparents, hbehind, parents_of_isNormal hdown]
    by_cases hnil : kept = []
    · subst hnil
      rfl
    · rw [pieces_ofPieces hnil fun piece hpiece => not_mem_of_mem_pieces (hinitial.mem hpiece)]
  · intro hnonempty
    have hne : kept ≠ [] := by
      rintro rfl
      exact hnonempty rfl
    have hown := pieces_ofPieces hne fun piece hpiece =>
      not_mem_of_mem_pieces (hinitial.mem hpiece)
    obtain ⟨above, name, hlastKept⟩ := (List.eq_nil_or_concat kept).resolve_left hne
    rw [List.concat_eq_append] at hlastKept
    have hname : isFiller name = false := by
      have hhead := List.head?_dropWhile_not isFiller front.reverse
      rwa [hdropped, hlastKept, List.reverse_append] at hhead
    exact endsNamed_of_pieces (up_not_mem_segments hdown) (hown.trans hlastKept) hname

/-- The nearest parent of a path leads to the directory above. -/
theorem lead?_of_parent? {start above : Location} {name : Name}
    (hnormal : ∀ component ∈ path.components, component.IsNormal) (hnonempty : path.text ≠ "")
    (hparent : path.parent? = some parent) (hlead : path.lead? start = some (above ++ [name])) :
    parent.lead? start = some above := by
  obtain ⟨front, last, hcomponents⟩ :=
    (List.eq_nil_or_concat path.components).resolve_left (components_ne_nil hnonempty)
  rw [List.concat_eq_append] at hcomponents
  obtain ⟨text, rfl⟩ := hnormal last (by simp [hcomponents])
  rw [lead?, hcomponents, List.foldlM_append] at hlead
  obtain ⟨spot, hspot, hstep⟩ := Option.bind_eq_some_iff.mp hlead
  rw [List.foldlM_cons] at hstep
  obtain ⟨next, hnext, hsame⟩ := Option.bind_eq_some_iff.mp hstep
  obtain ⟨entry, -, rfl⟩ := Option.map_eq_some_iff.mp hnext
  obtain ⟨rfl, -⟩ := List.append_inj' (Option.some.inj hsame) rfl
  rw [lead?, components_of_parent? hparent, hcomponents, List.dropLast_concat]
  exact hspot

/-! ### What a path ends with -/

theorem exists_text_of_pieces {front : List (List Char)} {last : List Char} (hfront : front ≠ [])
    (hpieces : path.pieces = front ++ [last]) :
    ∃ characters, path.text.toList = characters ++ '/' :: last := by
  have hslash (piece : List Char) (hpiece : piece ∈ front ++ [last]) : '/' ∉ piece :=
    not_mem_of_mem_pieces (hpieces ▸ hpiece)
  have hcharacters : Freestanding.pieces '/' (['/'].intercalate front) = front :=
    pieces_intercalate hfront fun piece hpiece => hslash piece (by simp [hpiece])
  have hsame : Freestanding.pieces '/' path.text.toList =
      Freestanding.pieces '/' (['/'].intercalate front ++ '/' :: last) := by
    rw [pieces_append_cons, hcharacters, pieces_of_not_mem (hslash last (by simp))]
    exact hpieces
  exact ⟨_, eq_of_pieces_eq '/' hsame⟩

/-- A path of names ends with a name, unless it ends with a slash or with a dot
behind one. -/
theorem endsNamed_iff (hplain : path.IsPlain) :
    path.EndsNamed ↔ ¬ ['/'] <:+ path.text.toList ∧ ¬ ['/', '.'] <:+ path.text.toList := by
  have hnot {front last : List Char} (hends : path.EndsNamed) (hslash : '/' ∉ last)
      (hfiller : isFiller last = true) : path.text.toList ≠ front ++ '/' :: last := by
    intro htext
    obtain ⟨above, name, hpieces, hname⟩ := exists_piece_of_endsNamed hends
    rw [pieces, htext, pieces_append_cons, pieces_of_not_mem hslash] at hpieces
    obtain ⟨-, hsame⟩ := List.append_inj' hpieces rfl
    rw [← List.singleton_inj.mp hsame, hfiller] at hname
    cases hname
  constructor
  · intro hends
    constructor
    · rintro ⟨front, htext⟩
      exact hnot hends (by simp) rfl htext.symm
    · rintro ⟨front, htext⟩
      exact hnot hends (by decide) rfl htext.symm
  · rintro ⟨hslash, hdot⟩
    obtain ⟨front, last, hpieces⟩ :=
      (List.eq_nil_or_concat path.pieces).resolve_left (pieces_ne_nil _ _)
    rw [List.concat_eq_append] at hpieces
    refine endsNamed_of_pieces (up_not_mem_segments hplain.normal) hpieces ?_
    rw [← Bool.not_eq_true]
    intro hfiller
    by_cases hfront : front = []
    · -- A single piece that is no name makes no path of names.
      have hcomponents := path.components_eq
      rw [hpieces, hfront] at hcomponents
      simp only [isFiller, Bool.or_eq_true, decide_eq_true_eq] at hfiller
      rcases hfiller with rfl | rfl
      · exact hplain.ne_nil hcomponents
      · have hcurrent := hplain.normal .current (by rw [hcomponents]; exact List.mem_cons_self)
        simp [Component.IsNormal] at hcurrent
    · obtain ⟨characters, htext⟩ := exists_text_of_pieces hfront hpieces
      simp only [isFiller, Bool.or_eq_true, decide_eq_true_eq] at hfiller
      rcases hfiller with rfl | rfl
      · exact hslash ⟨characters, htext.symm⟩
      · exact hdot ⟨characters, htext.symm⟩

theorem endsNamed_join_iff (hnonempty : path.text ≠ "") (hrelative : below.isAbsolute = false) :
    (path.join below).EndsNamed ↔ below.EndsNamed := by
  obtain ⟨front, hfront⟩ : ∃ front, (path.join below).segments = front ++ below.segments := by
    rcases pieces_join hnonempty hrelative with ⟨front, -, -, hjoined⟩ | ⟨-, hjoined⟩
    · exact ⟨front.map Segment.ofPiece, by rw [segments, hjoined, List.map_append]; rfl⟩
    · exact ⟨path.segments, by rw [segments, hjoined, List.map_append]; rfl⟩
  constructor
  · rintro ⟨above, text, hsegments⟩
    obtain ⟨behind, last, hbelow⟩ :=
      (List.eq_nil_or_concat below.segments).resolve_left (FileSystem.segments_ne_nil below)
    rw [List.concat_eq_append] at hbelow
    rw [hfront, hbelow, ← List.append_assoc] at hsegments
    obtain ⟨-, hlast⟩ := List.append_inj' hsegments rfl
    exact ⟨behind, text, hbelow.trans (by rw [hlast])⟩
  · rintro ⟨above, text, hsegments⟩
    exact ⟨front ++ above, text, by rw [hfront, hsegments, List.append_assoc]⟩

/-! ### Names of permitted parts -/

/-- Whether a path leads down and all its names can be names of entries. -/
structure IsPermitted (path : Path) : Prop where
  plain : path.IsPlain
  nul : '\x00' ∉ path.text.toList
  short : ∀ component ∈ path.components, component.IsShort

instance (path : Path) : Decidable path.IsPermitted :=
  decidable_of_iff (path.IsPlain ∧ '\x00' ∉ path.text.toList ∧
      ∀ component ∈ path.components, component.IsShort)
    ⟨fun hpermitted => ⟨hpermitted.1, hpermitted.2.1, hpermitted.2.2⟩,
      fun hpermitted => ⟨hpermitted.plain, hpermitted.nul, hpermitted.short⟩⟩

theorem IsPermitted.isEntryName (hpermitted : path.IsPermitted) {text : String}
    (hcomponent : .normal text ∈ path.components) : IsEntryName text := by
  have hshort := hpermitted.short (.normal text) hcomponent
  have hnormal := hpermitted.plain.normal
  rw [components_eq] at hcomponent hnormal
  rw [componentsOfPieces_of_isNormal hnormal] at hcomponent
  obtain ⟨piece, hpiece, hstands⟩ := List.mem_filterMap.mp hcomponent
  have hslash : '/' ∉ piece := not_mem_of_mem_pieces hpiece
  have hnul : '\x00' ∉ piece := by
    intro hmem
    have htext : '\x00' ∈ ['/'].intercalate path.pieces := mem_intercalate_of_mem hpiece hmem
    exact hpermitted.nul ((intercalate_pieces path.text.toList) ▸ htext)
  unfold pieceComponent? Segment.ofPiece at hstands
  split_ifs at hstands with hblank hhere hup
  · cases hstands
  · cases hstands
  · cases hstands
  · obtain rfl : String.ofList piece = text := by simpa [Segment.component?] using hstands
    refine ⟨?_, by simpa using hslash, by simpa using hnul, hshort⟩
    simp only [List.mem_cons, List.not_mem_nil, or_false, ← String.toList_inj,
      String.toList_ofList]
    exact not_or.mpr ⟨hblank, not_or.mpr ⟨hhere, hup⟩⟩

theorem IsPermitted.exists_names (hpermitted : path.IsPermitted) :
    ∃ names : List Name, names ≠ [] ∧
      path.components = names.map fun name => .normal name.text := by
  have hnames (components : List Component)
      (hentries : ∀ component ∈ components, ∃ text, component = .normal text ∧ IsEntryName text) :
      ∃ names : List Name, components = names.map fun name => .normal name.text := by
    induction components with
    | nil => exact ⟨[], rfl⟩
    | cons component rest ih =>
        obtain ⟨⟨text, rfl, hentry⟩, hrest⟩ := List.forall_mem_cons.mp hentries
        obtain ⟨names, rfl⟩ := ih hrest
        exact ⟨⟨text, hentry⟩ :: names, rfl⟩
  obtain ⟨names, hcomponents⟩ := hnames path.components fun component hcomponent => by
    obtain ⟨text, rfl⟩ := hpermitted.plain.normal component hcomponent
    exact ⟨text, rfl, hpermitted.isEntryName hcomponent⟩
  refine ⟨names, ?_, hcomponents⟩
  rintro rfl
  exact hpermitted.plain.ne_nil hcomponents

end Path

end Freestanding
