import Freestanding.Proofs.Following
import Mathlib.Logic.Function.Basic

/-!
# What the operations do

Each operation that succeeds is described by what becomes of the two views of
the tree.  Storing changes the contents at one location, where a file may be
made; making directories leaves all contents alone.  In both cases the file
system afterwards extends the one before: every path that led to something
still leads there.  Files that are there can be written over, and directories
that are there are made by doing nothing.

Storing and copying empty a file before they fill it.  Whatever is refused is
refused before that, so that nothing has changed.
-/

namespace Freestanding

theorem exists_of_bind_eq_ok {ε α β : Type} {first : Except ε α} {next : α → Except ε β}
    {result : β} (hbind : (first >>= next) = .ok result) :
    ∃ value, first = .ok value ∧ next value = .ok result := by
  cases first with
  | error => cases hbind
  | ok value => exact ⟨value, rfl, hbind⟩

namespace FileSystem

/-- Whether everything that was there is still there, and of the same kind, and
paths start where they did. -/
structure Extends (before after : FileSystem) : Prop where
  current : after.current = before.current
  kinds : Kinds.Extends before.kind? after.kind?

theorem Extends.refl (files : FileSystem) : files.Extends files :=
  ⟨rfl, fun _ _ hkind => hkind⟩

theorem Extends.trans {before between after : FileSystem} (hfirst : before.Extends between)
    (hsecond : between.Extends after) : before.Extends after where
  current := hsecond.current.trans hfirst.current
  kinds location kind hkind := hsecond.kinds location kind (hfirst.kinds location kind hkind)

theorem isTree (files : FileSystem) : Kinds.IsTree files.kind? :=
  fun _ _ => kind?_parent

variable {files before after : FileSystem} {purpose : Purpose} {path : Path} {place : Place}
  {location : Location} {contents : List UInt8}

/-! ### Where paths lead -/

theorem segments_ne_nil (path : Path) : path.segments ≠ [] := by
  simp [Path.segments, Path.pieces, pieces_ne_nil]

theorem resolve_eq_ok_iff :
    files.resolve purpose path = .ok place ↔
      path.check = .ok () ∧
        Kinds.follow files.kind? purpose linkLimit (files.start path) path.segments =
          .ok place ∧
        files.kind? (files.start path) ≠ none := by
  rw [resolve_eq_follow]
  constructor
  · intro hresolve
    obtain ⟨_, hcheck, hfollow⟩ := exists_of_bind_eq_ok hresolve
    split_ifs at hfollow with hstart
    exact ⟨hcheck, hfollow, hstart⟩
  · rintro ⟨hcheck, hfollow, hstart⟩
    rw [hcheck, if_neg hstart, ← hfollow]
    rfl

theorem fits_of_resolve (hresolve : files.resolve purpose path = .ok place) :
    Kinds.Fits files.kind? purpose place :=
  files.isTree.fits_of_follow (segments_ne_nil path) (resolve_eq_ok_iff.mp hresolve).2.1

theorem kind?_root_of_resolve (hresolve : files.resolve purpose path = .ok place) :
    files.kind? [] = some .directory :=
  files.isTree.root (Kinds.directory_of_follow (segments_ne_nil path)
    (resolve_eq_ok_iff.mp hresolve).2.1)

theorem locate_eq_ok_iff :
    files.locate path = .ok location ↔
      files.resolve .reach path = .ok (.occupied location) := by
  unfold locate
  cases files.resolve .reach path with
  | error => simp
  | ok place => cases place <;> simp

theorem isDirectory_iff {files : FileSystem} {path : Path} :
    files.isDirectory path = true ↔
      ∃ location, files.locate path = .ok location ∧ files.kind? location = some .directory := by
  unfold isDirectory node?
  cases files.locate path with
  | error => simp
  | ok location =>
      simp only [Except.ok.injEq, exists_eq_left', ← isDirectoryAt_iff_kind?]
      rfl

/-- Where a path leads, the same path leads again when more is there, and also to
a free name that has been made since. -/
theorem Extends.resolve_again {again : Purpose} (hextends : before.Extends after)
    (hagain : purpose.Allows again) (hresolve : before.resolve purpose path = .ok place)
    (hplace : Kinds.Completes after.kind? purpose place) :
    after.resolve again path = .ok (.occupied place.location) := by
  obtain ⟨hcheck, hfollow, hstart⟩ := resolve_eq_ok_iff.mp hresolve
  have hsame : after.start path = before.start path := by
    unfold start
    rw [hextends.current]
  rw [resolve_eq_ok_iff, hsame]
  refine ⟨hcheck, hextends.kinds.follow_again hagain hplace hfollow, ?_⟩
  obtain ⟨kind, hkind⟩ := Option.ne_none_iff_exists'.mp hstart
  simp [hextends.kinds _ _ hkind]

theorem Extends.locate (hextends : before.Extends after)
    (hlocate : before.locate path = .ok location) : after.locate path = .ok location := by
  have hplace : Kinds.Completes after.kind? .reach (.occupied location) := by
    simp [Kinds.Completes]
  exact locate_eq_ok_iff.mpr
    (hextends.resolve_again (.inl rfl) (locate_eq_ok_iff.mp hlocate) hplace)

theorem Extends.isDirectory (hextends : before.Extends after)
    (hdirectory : before.isDirectory path = true) : after.isDirectory path = true := by
  obtain ⟨location, hlocate, hkind⟩ := isDirectory_iff.mp hdirectory
  exact isDirectory_iff.mpr ⟨location, hextends.locate hlocate, hextends.kinds _ _ hkind⟩

/-- What a path leads to is in the way of making something there. -/
theorem resolve_entry_of_locate (hlocate : files.locate path = .ok location) :
    ∃ entry, files.resolve .entry path = .ok (.occupied entry) := by
  obtain ⟨hcheck, hfollow, hstart⟩ := resolve_eq_ok_iff.mp (locate_eq_ok_iff.mp hlocate)
  obtain ⟨entry, hentry⟩ := Kinds.follow_entry_of_reach hfollow
  exact ⟨entry, resolve_eq_ok_iff.mpr ⟨hcheck, hentry, hstart⟩⟩

/-! ### Reading and storing -/

theorem read_eq_ok_iff :
    files.read path = .ok contents ↔
      ∃ location, files.locate path = .ok location ∧
        files.contents? location = some contents := by
  unfold read
  cases hlocate : files.locate path with
  | error => simp [bind, Except.bind]
  | ok location =>
      simp only [bind, Except.bind, Except.ok.injEq, exists_eq_left', contents?_eq_some_iff]
      cases files.root.get? location with
      | none => simp [throw, throwThe, MonadExceptOf.throw]
      | some node => cases node <;> simp [throw, throwThe, MonadExceptOf.throw, pure, Except.pure]

theorem Extends.read_eq_iff (hextends : before.Extends after)
    (hlocate : before.locate path = .ok location)
    (hcontents : before.contents? location = some contents) :
    after.read path = before.read path ↔ after.contents? location = before.contents? location := by
  rw [read_eq_ok_iff.mpr ⟨location, hlocate, hcontents⟩, read_eq_ok_iff, hcontents,
    hextends.locate hlocate]
  simp

/-- Whether contents have been stored at a location, and nothing else has
happened. -/
structure Stores (before after : FileSystem) (location : Location) (contents : List UInt8) :
    Prop where
  current : after.current = before.current
  free_or_file : before.kind? location = none ∨ before.kind? location = some .file
  kinds : after.kind? = Function.update before.kind? location (some .file)
  contents : after.contents? = Function.update before.contents? location (some contents)

theorem Stores.extends (hstores : before.Stores after location contents) :
    before.Extends after := by
  refine ⟨hstores.current, ?_⟩
  intro other kind hkind
  rw [hstores.kinds]
  by_cases hother : other = location
  · subst hother
    rcases hstores.free_or_file with hnone | hfile
    · simp [hnone] at hkind
    · rw [hfile] at hkind
      simpa using hkind
  · rw [Function.update_of_ne hother]
    exact hkind

/-- What can be written is a free name in a directory or a file that is there. -/
theorem writable_spec (hwritable : files.writable path = .ok location) :
    ∃ place, files.resolve .write path = .ok place ∧ place.location = location ∧
      (∃ above name, location = above ++ [name] ∧ files.kind? above = some .directory) ∧
      (files.kind? location = none ∨ files.kind? location = some .file) := by
  obtain ⟨place, hresolve, hplace⟩ := exists_of_bind_eq_ok hwritable
  have hfits := fits_of_resolve hresolve
  refine ⟨place, hresolve, ?_⟩
  cases place with
  | vacant made =>
      cases hplace
      exact ⟨rfl, hfits.2, .inl hfits.1⟩
  | occupied there =>
      dsimp only at hplace
      split_ifs at hplace with hdirectory
      cases hplace
      have hnot := mt isDirectoryAt_iff_kind?.mpr hdirectory
      refine ⟨rfl, ?_, ?_⟩
      · rcases List.eq_nil_or_concat location with rfl | ⟨above, name, rfl⟩
        · -- The root is a directory, since the path was followed from somewhere.
          exact absurd (kind?_root_of_resolve hresolve) hnot
        · rw [List.concat_eq_append] at hfits ⊢
          exact ⟨above, name, rfl, kind?_parent hfits.1⟩
      · obtain ⟨kind, hkind⟩ := Option.ne_none_iff_exists'.mp hfits.1
        cases kind with
        | file => exact .inr hkind
        | directory => exact absurd hkind hnot
        | link target => exact absurd hkind (hfits.2 (by simp) target)

/-- Contents can be put where a file is, or at a free name in a directory. -/
theorem stores_put {above : Location} {name : Name} (hparent : files.kind? above = some .directory)
    (hfree : files.kind? (above ++ [name]) = none ∨ files.kind? (above ++ [name]) = some .file) :
    files.Stores (files.put (above ++ [name]) (.file contents) .file) (above ++ [name])
      contents := by
  have hold : files.kind? (above ++ [name]) ≠ some .directory := by
    rcases hfree with hnone | hfile
    · simp [hnone]
    · simp [hfile]
  refine ⟨rfl, hfree, ?_, ?_⟩
  · funext other
    rw [kind?_put (fun _ => rfl) hparent hold, Function.update_apply]
    rfl
  · funext other
    rw [contents?_put (fun _ => rfl) hparent hold, Function.update_apply]
    rfl

/-- A path that was followed to write a file leads to the file once it is there. -/
theorem Extends.resolve_of_writable {again : Purpose} (hextends : before.Extends after)
    (hagain : Purpose.write.Allows again) (hwritable : before.writable path = .ok location)
    (hfile : after.kind? location = some .file) :
    after.resolve again path = .ok (.occupied location) := by
  obtain ⟨place, hresolve, rfl, -⟩ := writable_spec hwritable
  refine hextends.resolve_again hagain hresolve ?_
  cases place with
  | occupied => simp [Kinds.Completes]
  | vacant made => exact .inr ⟨rfl, hfile⟩

theorem Extends.writable_again (hextends : before.Extends after)
    (hwritable : before.writable path = .ok location)
    (hfile : after.kind? location = some .file) : after.writable path = .ok location := by
  have hresolve := hextends.resolve_of_writable (.inr ⟨rfl, rfl⟩) hwritable hfile
  have hnot : ¬ after.root.isDirectoryAt location = true := by
    simp [isDirectoryAt_iff_kind?, hfile]
  simp only [writable, hresolve, bind, Except.bind]
  rw [if_neg hnot]
  rfl

theorem Stores.kind?_self (hstores : before.Stores after location contents) :
    after.kind? location = some .file := by
  rw [hstores.kinds]
  exact Function.update_self ..

theorem Stores.locate (hstores : before.Stores after location contents)
    (hwritable : before.writable path = .ok location) :
    after.locate path = .ok location :=
  locate_eq_ok_iff.mpr
    (hstores.extends.resolve_of_writable (.inl rfl) hwritable hstores.kind?_self)

theorem openEmptied_of_writable (hwritable : files.writable path = .ok location) :
    files.openEmptied path = (files.fill location [], .ok location) := by
  simp only [openEmptied, hwritable, fill]

theorem store_of_writable (hwritable : files.writable path = .ok location)
    (contents : List UInt8) :
    files.store path contents = ((files.fill location []).fill location contents, .ok ()) := by
  simp only [store, openEmptied_of_writable hwritable]

theorem openEmptied_spec (hopen : before.openEmptied path = (after, .ok location)) :
    before.writable path = .ok location ∧ before.Stores after location [] := by
  unfold openEmptied at hopen
  split at hopen
  next target hwritable =>
      obtain ⟨rfl, htarget⟩ := Prod.mk.inj hopen
      obtain rfl : target = location := Except.ok.inj htarget
      obtain ⟨_, -, -, ⟨above, name, rfl, hparent⟩, hfree⟩ := writable_spec hwritable
      exact ⟨hwritable, stores_put hparent hfree⟩
  next => cases hopen

theorem Stores.fill {old : List UInt8} (hstores : before.Stores after location old)
    (hwritable : before.writable path = .ok location) (contents : List UInt8) :
    before.Stores (after.fill location contents) location contents := by
  obtain ⟨_, -, -, ⟨above, name, rfl, hparent⟩, -⟩ := writable_spec hwritable
  have hput : after.Stores (after.fill (above ++ [name]) contents) (above ++ [name]) contents :=
    stores_put (hstores.extends.kinds _ _ hparent) (.inr hstores.kind?_self)
  refine ⟨hput.current.trans hstores.current, hstores.free_or_file, ?_, ?_⟩
  · rw [hput.kinds, hstores.kinds, Function.update_idem]
  · rw [hput.contents, hstores.contents, Function.update_idem]

theorem store_spec (hstore : before.store path contents = (after, .ok ())) :
    ∃ target, before.writable path = .ok target ∧ after.locate path = .ok target ∧
      before.Stores after target contents := by
  unfold store at hstore
  split at hstore
  next opened target hopen =>
      obtain ⟨rfl, -⟩ := Prod.mk.inj hstore
      obtain ⟨hwritable, hopened⟩ := openEmptied_spec hopen
      have hstores := hopened.fill hwritable contents
      exact ⟨target, hwritable, hstores.locate hwritable, hstores⟩
  next => cases hstore

theorem openRegular_eq_ok_iff :
    files.openRegular path = .ok location ↔
      files.locate path = .ok location ∧
        ∃ contents, files.contents? location = some contents := by
  unfold openRegular
  cases hlocate : files.locate path with
  | error => simp [bind, Except.bind]
  | ok there =>
      simp only [bind, Except.bind, Except.ok.injEq, contents?_eq_some_iff]
      constructor
      · intro hopen
        split at hopen
        next contents hget =>
            obtain rfl : there = location := Except.ok.inj hopen
            exact ⟨rfl, contents, hget⟩
        next => cases hopen
      · rintro ⟨rfl, contents, hget⟩
        rw [hget]
        rfl

theorem copy_of_writable {source destination : Path} {origin : Location}
    (hlocate : files.locate source = .ok origin)
    (hcontents : files.contents? origin = some contents)
    (hwritable : files.writable destination = .ok location) :
    files.copy source destination =
      ((files.fill location []).fill location ((files.fill location []).held origin), .ok ()) := by
  have hsource := openRegular_eq_ok_iff.mpr ⟨hlocate, contents, hcontents⟩
  simp only [copy, hsource, openEmptied_of_writable hwritable]

theorem held_eq (hcontents : files.contents? location = some contents) :
    files.held location = contents := by
  simp [held, contents?_eq_some_iff.mp hcontents]

/-- A copy holds what its source held, unless it is the source itself. -/
theorem copy_spec {source destination : Path}
    (hcopy : before.copy source destination = (after, .ok ())) :
    ∃ origin target contents, before.locate source = .ok origin ∧
      before.contents? origin = some contents ∧ before.writable destination = .ok target ∧
      after.locate destination = .ok target ∧
      before.Stores after target (if target = origin then [] else contents) := by
  unfold copy at hcopy
  split at hcopy
  next => cases hcopy
  next origin hsource =>
      obtain ⟨hlocate, contents, hcontents⟩ := openRegular_eq_ok_iff.mp hsource
      split at hcopy
      next => cases hcopy
      next opened target hopen =>
          obtain ⟨rfl, -⟩ := Prod.mk.inj hcopy
          obtain ⟨hwritable, hopened⟩ := openEmptied_spec hopen
          have hheld : opened.contents? origin =
              some (if target = origin then [] else contents) := by
            rw [hopened.contents]
            by_cases htarget : target = origin
            · rw [if_pos htarget, htarget, Function.update_self]
            · rw [if_neg htarget, Function.update_of_ne (Ne.symm htarget), hcontents]
          have hstores := hopened.fill hwritable (if target = origin then [] else contents)
          rw [held_eq hheld]
          exact ⟨origin, target, contents, hlocate, hcontents, hwritable,
            hstores.locate hwritable, hstores⟩

/-! ### What is refused -/

theorem eq_of_refused_openEmptied {fault : Fault}
    (hrefused : before.openEmptied path = (after, .error fault)) : after = before := by
  unfold openEmptied at hrefused
  split at hrefused
  next => cases hrefused
  next => exact (Prod.mk.inj hrefused).1.symm

/-- Storing is refused before the file is emptied, if at all. -/
theorem eq_of_refused_store {fault : Fault}
    (hrefused : before.store path contents = (after, .error fault)) : after = before := by
  unfold store at hrefused
  split at hrefused
  next => cases hrefused
  next opened failure hopen =>
      obtain ⟨rfl, -⟩ := Prod.mk.inj hrefused
      exact eq_of_refused_openEmptied hopen

/-- Copying is refused before the destination is emptied, if at all. -/
theorem eq_of_refused_copy {source destination : Path} {fault : Fault}
    (hrefused : before.copy source destination = (after, .error fault)) : after = before := by
  unfold copy at hrefused
  split at hrefused
  next => exact (Prod.mk.inj hrefused).1.symm
  next =>
      split at hrefused
      next opened failure hopen =>
          obtain ⟨rfl, -⟩ := Prod.mk.inj hrefused
          exact eq_of_refused_openEmptied hopen
      next => cases hrefused

/-! ### Making directories -/

/-- Whether nothing has happened but that directories were made. -/
structure AddsDirectories (before after : FileSystem) : Prop where
  current : after.current = before.current
  kinds : ∀ location, after.kind? location = before.kind? location ∨
    before.kind? location = none ∧ after.kind? location = some .directory
  contents : after.contents? = before.contents?

theorem AddsDirectories.refl (files : FileSystem) : files.AddsDirectories files :=
  ⟨rfl, fun _ => .inl rfl, rfl⟩

theorem AddsDirectories.trans {between : FileSystem} (hfirst : before.AddsDirectories between)
    (hsecond : between.AddsDirectories after) : before.AddsDirectories after where
  current := hsecond.current.trans hfirst.current
  kinds location := by
    rcases hsecond.kinds location with hsame | ⟨hnone, hmade⟩
    · rw [hsame]
      exact hfirst.kinds location
    · rcases hfirst.kinds location with hsame | ⟨-, hdirectory⟩
      · exact .inr ⟨hsame.symm.trans hnone, hmade⟩
      · simp [hdirectory] at hnone
  contents := hsecond.contents.trans hfirst.contents

theorem AddsDirectories.extends (hadds : before.AddsDirectories after) :
    before.Extends after := by
  refine ⟨hadds.current, ?_⟩
  intro location kind hkind
  rcases hadds.kinds location with hsame | ⟨hnone, -⟩
  · exact hsame.trans hkind
  · simp [hnone] at hkind

/-- A directory is made where nothing was, and nothing else happens. -/
theorem makeDirectory_spec (hmake : before.makeDirectory path = .ok after) :
    ∃ location, before.resolve .entry path = .ok (.vacant location) ∧
      before.kind? location = none ∧ after.current = before.current ∧
      after.kind? = Function.update before.kind? location (some .directory) ∧
      after.contents? = before.contents? := by
  obtain ⟨place, hresolve, hplace⟩ := exists_of_bind_eq_ok hmake
  cases place with
  | occupied => cases hplace
  | vacant location =>
      cases hplace
      obtain ⟨hnone, above, name, rfl, hparent⟩ := fits_of_resolve hresolve
      have hold : before.kind? (above ++ [name]) ≠ some .directory := by simp [hnone]
      have hget : before.root.get? (above ++ [name]) = none := by
        simpa [kind?] using hnone
      have hcontents : before.contents? (above ++ [name]) = none := by
        rw [contents?, hget]
        rfl
      refine ⟨above ++ [name], hresolve, hnone, rfl, ?_, ?_⟩
      · funext other
        rw [kind?_put (fun _ => rfl) hparent hold, Function.update_apply]
        rfl
      · funext other
        rw [contents?_put (fun _ => rfl) hparent hold]
        split_ifs with hother
        · rw [hother, hcontents]
          rfl
        · rfl

theorem addsDirectories_of_makeDirectory (hmake : before.makeDirectory path = .ok after) :
    before.AddsDirectories after := by
  obtain ⟨location, -, hnone, hcurrent, hkinds, hcontents⟩ := makeDirectory_spec hmake
  refine ⟨hcurrent, ?_, hcontents⟩
  intro other
  rw [hkinds]
  by_cases hother : other = location
  · subst hother
    exact .inr ⟨hnone, Function.update_self ..⟩
  · exact .inl (Function.update_of_ne hother ..)

theorem isDirectory_of_makeDirectory (hmake : before.makeDirectory path = .ok after) :
    after.isDirectory path = true := by
  obtain ⟨location, hresolve, -, -, hkinds, -⟩ := makeDirectory_spec hmake
  have hmade : after.kind? location = some .directory := by
    rw [hkinds]
    exact Function.update_self ..
  have hagain := (addsDirectories_of_makeDirectory hmake).extends.resolve_again (.inl rfl) hresolve
    (.inl hmade)
  exact isDirectory_iff.mpr ⟨location, locate_eq_ok_iff.mpr hagain, hmade⟩

theorem addsDirectories_makeWithParents (files : FileSystem) (paths : List Path) :
    files.AddsDirectories (files.makeWithParents paths).1 := by
  induction paths with
  | nil => exact .refl files
  | cons path parents ih =>
      unfold makeWithParents
      split
      · exact .refl files
      · split
        next made hmade => exact addsDirectories_of_makeDirectory hmade
        next =>
          split
          next above fault habove =>
              rw [habove] at ih
              exact ih
          next above habove =>
              rw [habove] at ih
              split
              next made hmade => exact ih.trans (addsDirectories_of_makeDirectory hmade)
              next => exact ih
        next => exact .refl files

theorem addsDirectories_makeDirectories (files : FileSystem) (path : Path) :
    files.AddsDirectories (files.makeDirectories path).1 :=
  addsDirectories_makeWithParents files (path :: path.parents)

theorem isDirectory_of_makeDirectories (hnonempty : path.text ≠ "")
    (hmake : (files.makeDirectories path).2 = .ok ()) :
    (files.makeDirectories path).1.isDirectory path = true := by
  revert hmake
  unfold makeDirectories makeWithParents
  rw [if_neg hnonempty]
  split
  next made hmade => exact fun _ => isDirectory_of_makeDirectory hmade
  next =>
      split
      next => simp
      next above habove =>
          split
          next made hmade => exact fun _ => isDirectory_of_makeDirectory hmade
          next => simp
  next => simp

/-- Directories that are there are made by doing nothing. -/
theorem makeDirectories_of_isDirectory (hdirectory : files.isDirectory path = true) :
    files.makeDirectories path = (files, .ok ()) := by
  obtain ⟨location, hlocate, -⟩ := isDirectory_iff.mp hdirectory
  obtain ⟨entry, hentry⟩ := resolve_entry_of_locate hlocate
  have hrefused : files.makeDirectory path = .error .alreadyExists := by
    simp only [makeDirectory, hentry, bind, Except.bind]
    rfl
  unfold makeDirectories makeWithParents
  simp only [hrefused, hdirectory, if_true, ite_self]

theorem makeDirectories_of_text_eq_empty (hempty : path.text = "") :
    files.makeDirectories path = (files, .ok ()) := by
  unfold makeDirectories makeWithParents
  exact if_pos hempty

end FileSystem

end Freestanding
