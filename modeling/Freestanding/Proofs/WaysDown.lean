import Freestanding.Proofs.RootedPaths

/-!
# Ways down

Segments that do not lead up pass one location after the other on the way down to
where they lead.  As long as these are directories nothing can go wrong, so a way
through directories leads on as it would from its end.  The way is open if there
are no files on it: then what is missing of it are directories, and making a
directory at the end of it is refused only because they are missing.
-/

namespace Freestanding

/-- What a path begins with is permitted if the path is. -/
theorem Path.check_of_isPrefix {path front : Path}
    (hinitial : front.text.toList <+: path.text.toList) (hnonempty : front.text ≠ "")
    (hcheck : path.check = .ok ()) : front.check = .ok () := by
  obtain ⟨hnul, hshort, -⟩ := check_eq_ok_iff.mp hcheck
  refine check_eq_ok_iff.mpr ⟨fun hmem => hnul (hinitial.mem hmem), ?_, hnonempty⟩
  obtain ⟨back, hback⟩ := hinitial
  have htext : path.text = front.text ++ String.ofList back := by
    rw [← String.toList_inj, String.toList_append, String.toList_ofList, hback]
  rw [htext, String.utf8ByteSize_append] at hshort
  omega

namespace Kinds

variable {kinds : Kinds} {purpose : Purpose} {location next : Location} {segment : Segment}
  {rest : List Segment}

/-- A segment leads on from a directory to a directory, unless nothing but blank
segments follow it and it is not followed to reach what is there. -/
theorem move_eq_go (hhere : kinds location = some .directory)
    (hlead : segment.lead? location = some next) (hnext : kinds next = some .directory)
    (hrest : purpose = .reach ∨ ¬ rest.all (· = .blank)) :
    kinds.move purpose location segment rest = .go next := by
  cases segment with
  | blank =>
      obtain rfl : location = next := Option.some.inj hlead
      exact if_pos hhere
  | here =>
      obtain rfl : location = next := Option.some.inj hlead
      exact if_pos hhere
  | up =>
      obtain rfl : location.dropLast = next := Option.some.inj hlead
      exact if_pos hhere
  | named text =>
      obtain ⟨name, hname, rfl⟩ := Option.map_eq_some_iff.mp hlead
      have hlong : ¬ nameLimit < text.utf8ByteSize := by
        rw [← Name.text_of_ofText? hname]
        exact Nat.not_lt.mpr name.isEntryName.2.2.2
      have hslash : ¬ (purpose = .write ∧ rest.all (· = .blank) ∧ rest ≠ []) := by
        rintro ⟨rfl, hblank, -⟩
        exact hrest.elim (by simp) (fun hnot => hnot hblank)
      have hlast : ¬ (rest.all (· = .blank) ∧ purpose = .entry) := by
        rintro ⟨hblank, rfl⟩
        exact hrest.elim (by simp) (fun hnot => hnot hblank)
      simp only [move, if_pos hhere, if_neg hslash, if_neg hlong, hname, hnext, if_neg hlast]
      rfl

/-- A segment that leads to where nothing is leads nowhere, unless it is the last
one. -/
theorem move_eq_missing (hhere : kinds location = some .directory)
    (hlead : segment.lead? location = some next) (hnext : kinds next = none)
    (hrest : ¬ rest.all (· = .blank)) (htree : kinds.IsTree) :
    kinds.move purpose location segment rest = .stop (.error .missing) := by
  cases segment with
  | blank =>
      obtain rfl : location = next := Option.some.inj hlead
      simp [hhere] at hnext
  | here =>
      obtain rfl : location = next := Option.some.inj hlead
      simp [hhere] at hnext
  | up =>
      obtain rfl : location.dropLast = next := Option.some.inj hlead
      simp [htree.dropLast hhere] at hnext
  | named text =>
      obtain ⟨name, hname, rfl⟩ := Option.map_eq_some_iff.mp hlead
      have hlong : ¬ nameLimit < text.utf8ByteSize := by
        rw [← Name.text_of_ofText? hname]
        exact Nat.not_lt.mpr name.isEntryName.2.2.2
      have hslash : ¬ (purpose = .write ∧ rest.all (· = .blank) ∧ rest ≠ []) :=
        fun hblank => hrest hblank.2.1
      have hlast : ¬ (rest.all (· = .blank) ∧ purpose ≠ .reach) := fun hblank => hrest hblank.1
      simp only [move, if_pos hhere, if_neg hslash, if_neg hlong, hname, hnext, if_neg hlast]

/-- A last name that is followed for anything but to reach what is there leads to
an entry of its directory, whether or not that is there. -/
theorem walk_named {above : Location} {name : Name} (hhere : kinds above = some .directory)
    (hpurpose : purpose ≠ .reach)
    (hnot : ∀ target, kinds (above ++ [name]) ≠ some (.link target))
    (onLink : Location → Path → List Segment → Except Fault Place) :
    kinds.walk purpose onLink above [.named name.text] =
      .ok (if kinds (above ++ [name]) = none then .vacant (above ++ [name])
        else .occupied (above ++ [name])) := by
  have hlong : ¬ nameLimit < name.text.utf8ByteSize := Nat.not_lt.mpr name.isEntryName.2.2.2
  cases hentry : kinds (above ++ [name]) with
  | none => simp [walk, move, hhere, hlong, name.ofText?_text, hentry, hpurpose]
  | some kind =>
      by_cases hmakes : purpose = .entry
      · simp [walk, move, hhere, hlong, name.ofText?_text, hentry, hmakes]
      · cases kind with
        | file => simp [walk, move, hhere, hlong, name.ofText?_text, hentry, hmakes, Move.into]
        | link target => exact absurd hentry (hnot target)
        | directory =>
            simp [walk, move, hhere, hlong, name.ofText?_text, hentry, hmakes, Move.into]

end Kinds

namespace FileSystem

variable {files after : FileSystem} {purpose : Purpose} {front more : List Segment}
  {location above : Location} {path : Path}

theorem kind?_eq_directory_of_isPrefix (hkind : files.kind? location = some .directory)
    (habove : above <+: location) : files.kind? above = some .directory := by
  by_cases hsame : above = location
  · rw [hsame, hkind]
  · exact kind?_of_isPrefix (by simp [hkind]) habove hsame

/-- Segments that lead down to a directory lead on from there. -/
theorem walk_append_of_directory (hup : .up ∉ front)
    (hlead : front.foldlM Segment.lead? location = some above)
    (habove : files.kind? above = some .directory)
    (hmore : purpose = .reach ∨ ¬ more.all (· = .blank))
    (onLink : Location → Path → List Segment → Except Fault Place) :
    Kinds.walk files.kind? purpose onLink location (front ++ more) =
      Kinds.walk files.kind? purpose onLink above more := by
  induction front generalizing location with
  | nil =>
      obtain rfl : location = above := Option.some.inj hlead
      rfl
  | cons segment rest ih =>
      have hhere : files.kind? location = some .directory :=
        kind?_eq_directory_of_isPrefix habove (isPrefix_of_foldlM_lead? hup hlead)
      have hrest : .up ∉ rest := List.not_mem_of_not_mem_cons hup
      rw [List.foldlM_cons] at hlead
      obtain ⟨next, hnext, hlead⟩ := Option.bind_eq_some_iff.mp hlead
      have hbehind : purpose = .reach ∨ ¬ (rest ++ more).all (· = .blank) :=
        hmore.imp_right fun hnot => by simp_all
      have hmove : Kinds.move files.kind? purpose location segment (rest ++ more) = .go next :=
        Kinds.move_eq_go hhere hnext
          (kind?_eq_directory_of_isPrefix habove (isPrefix_of_foldlM_lead? hrest hlead)) hbehind
      rw [List.cons_append, Kinds.walk, hmove]
      exact ih hrest hlead

/-- Whether nothing but directories is on the way down to a location. -/
def IsOpen (files : FileSystem) (location : Location) : Prop :=
  ∀ above, above <+: location → files.kind? above = none ∨ files.kind? above = some .directory

/-- Segments that lead down an open way to where nothing is lead nowhere when
others follow them. -/
theorem walk_append_of_missing (hup : .up ∉ front)
    (hlead : front.foldlM Segment.lead? location = some above)
    (hlocation : files.kind? location = some .directory) (hopen : files.IsOpen above)
    (habove : files.kind? above = none) (hmore : ¬ more.all (· = .blank))
    (onLink : Location → Path → List Segment → Except Fault Place) :
    Kinds.walk files.kind? purpose onLink location (front ++ more) = .error .missing := by
  induction front generalizing location with
  | nil =>
      obtain rfl : location = above := Option.some.inj hlead
      simp [hlocation] at habove
  | cons segment rest ih =>
      have hrest : .up ∉ rest := List.not_mem_of_not_mem_cons hup
      rw [List.foldlM_cons] at hlead
      obtain ⟨next, hnext, hlead⟩ := Option.bind_eq_some_iff.mp hlead
      have hbehind : ¬ (rest ++ more).all (· = .blank) := by simp_all
      rw [List.cons_append, Kinds.walk]
      rcases hopen next (isPrefix_of_foldlM_lead? hrest hlead) with hnone | hdirectory
      · rw [Kinds.move_eq_missing hlocation hnext hnone hbehind files.isTree]
      · rw [Kinds.move_eq_go hlocation hnext hdirectory (.inr hbehind)]
        exact ih hrest hlead hdirectory

theorem IsOpen.of_isPrefix (hopen : files.IsOpen location) (habove : above <+: location) :
    files.IsOpen above :=
  fun upper hupper => hopen upper (hupper.trans habove)

theorem isOpen_append (hdirectory : files.kind? location = some .directory) {front : List Name}
    (hfront : ∀ way, way <+: front → way ≠ [] →
      files.kind? (location ++ way) = none ∨ files.kind? (location ++ way) = some .directory) :
    files.IsOpen (location ++ front) := by
  intro above habove
  rcases List.prefix_or_prefix_of_prefix habove (List.prefix_append location front) with
    hinitial | ⟨way, rfl⟩
  · exact .inr (kind?_eq_directory_of_isPrefix hdirectory hinitial)
  · by_cases hway : way = []
    · rw [hway, List.append_nil]
      exact .inr hdirectory
    · exact hfront way ((List.prefix_append_right_inj location).mp habove) hway

theorem AddsDirectories.isOpen (hadds : files.AddsDirectories after)
    (hopen : files.IsOpen location) : after.IsOpen location := by
  intro above habove
  rcases hadds.kinds above with hsame | ⟨-, hmade⟩
  · rw [hsame]
    exact hopen above habove
  · exact .inr hmade

theorem resolve_of_check (hcheck : path.check = .ok ())
    (hstart : files.kind? (files.start path) ≠ none) :
    files.resolve purpose path =
      Kinds.follow files.kind? purpose linkLimit (files.start path) path.segments := by
  rw [resolve_eq_follow, hcheck]
  exact if_neg hstart

/-- A path that leads down to a directory leads there. -/
theorem locate_of_lead? (hcheck : path.check = .ok ()) (hup : .up ∉ path.segments)
    (hlead : path.lead? files.current = some location)
    (hkind : files.kind? location = some .directory) : files.locate path = .ok location := by
  rw [lead?_eq_foldlM_segments] at hlead
  have hstart := kind?_eq_directory_of_isPrefix hkind (isPrefix_of_foldlM_lead? hup hlead)
  have hwalk (onLink : Location → Path → List Segment → Except Fault Place) :
      Kinds.walk files.kind? .reach onLink (files.start path) path.segments =
        .ok (.occupied location) := by
    have happend : Kinds.walk files.kind? .reach onLink (files.start path) (path.segments ++ []) =
        Kinds.walk files.kind? .reach onLink location [] :=
      walk_append_of_directory hup hlead hkind (.inl rfl) onLink
    rw [List.append_nil] at happend
    exact happend
  rw [locate_eq_ok_iff, resolve_eq_ok_iff]
  exact ⟨hcheck, hwalk _, by simp [hstart]⟩

end FileSystem

end Freestanding
