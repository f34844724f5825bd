import Freestanding.Installation
import Freestanding.Proofs.Effects

/-!
# What an installation does to contents

Installing a header moves contents from one location to another.  Where the
paths of an installation that succeeds lead at its end is where they led when
they were used, so the whole installation amounts to a list of transfers, one
for each header, between locations that are known at the end.

Of the transfers to one location the last one counts.
-/

namespace Freestanding

abbrev Contents := Location → Option (List UInt8)

/-- The installation of a header, as what it does to contents. -/
structure Transfer where
  name : String
  origin : Location
  target : Location

namespace Transfer

/-- The bytes that are installed, from those at the origin.  The configuration
header is read before it is written; any other header that is installed over
itself is lost. -/
def bytes (transfer : Transfer) (contents : List UInt8) : List UInt8 :=
  if transfer.name = configHeader then configure contents
  else if transfer.target = transfer.origin then []
  else contents

def perform (transfer : Transfer) (contents : Contents) : Contents :=
  Function.update contents transfer.target ((contents transfer.origin).map transfer.bytes)

def performEach (transfers : List Transfer) (contents : Contents) : Contents :=
  transfers.foldl (fun contents transfer => transfer.perform contents) contents

variable {transfers : List Transfer} {contents : Contents} {location : Location}

theorem performEach_append (earlier later : List Transfer) (contents : Contents) :
    performEach (earlier ++ later) contents =
      performEach later (performEach earlier contents) := by
  unfold performEach
  rw [List.foldl_append]

theorem performEach_of_forall_ne (htargets : ∀ transfer ∈ transfers, transfer.target ≠ location) :
    performEach transfers contents location = contents location := by
  induction transfers generalizing contents with
  | nil => rfl
  | cons transfer rest ih =>
      have hhead := htargets transfer List.mem_cons_self
      have htail := fun other hother => htargets other (List.mem_cons_of_mem _ hother)
      calc
        performEach (transfer :: rest) contents location
          = performEach rest (transfer.perform contents) location := rfl
        _ = transfer.perform contents location := ih htail
        _ = contents location := Function.update_of_ne (Ne.symm hhead) ..

theorem performEach_of_last {earlier later : List Transfer} {transfer : Transfer}
    (hlater : ∀ other ∈ later, other.target ≠ transfer.target) :
    performEach (earlier ++ transfer :: later) contents transfer.target =
      (performEach earlier contents transfer.origin).map transfer.bytes := by
  rw [performEach_append]
  calc
    performEach (transfer :: later) (performEach earlier contents) transfer.target
      = transfer.perform (performEach earlier contents) transfer.target :=
          performEach_of_forall_ne hlater
    _ = (performEach earlier contents transfer.origin).map transfer.bytes :=
          Function.update_self ..

theorem exists_last_of_target (htarget : ∃ transfer ∈ transfers, transfer.target = location) :
    ∃ earlier transfer later, transfers = earlier ++ transfer :: later ∧
      transfer.target = location ∧ ∀ other ∈ later, other.target ≠ location := by
  induction transfers with
  | nil => simp at htarget
  | cons head rest ih =>
      by_cases hrest : ∃ transfer ∈ rest, transfer.target = location
      · obtain ⟨earlier, transfer, later, rfl, hlast⟩ := ih hrest
        exact ⟨head :: earlier, transfer, later, rfl, hlast⟩
      · obtain ⟨transfer, hmem, hlocation⟩ := htarget
        rcases List.mem_cons.mp hmem with rfl | hmem
        · exact ⟨[], transfer, rest, rfl, hlocation,
            fun other hother heq => hrest ⟨other, hother, heq⟩⟩
        · exact absurd ⟨transfer, hmem, hlocation⟩ hrest

/-- The contents of all origins are kept exactly if the last transfer to each
of them that is a target moves there what was there. -/
theorem performEach_keeps_origins_iff :
    (∀ transfer ∈ transfers,
        performEach transfers contents transfer.origin = contents transfer.origin) ↔
      ∀ earlier transfer later, transfers = earlier ++ transfer :: later →
        (∃ other ∈ transfers, other.origin = transfer.target) →
        (∀ other ∈ later, other.target ≠ transfer.target) →
        (performEach earlier contents transfer.origin).map transfer.bytes =
          contents transfer.target := by
  constructor
  · rintro hkept earlier transfer later rfl ⟨other, hother, horigin⟩ hlast
    have hsame := hkept other hother
    rw [horigin, performEach_of_last hlast] at hsame
    exact hsame
  · intro hlast transfer htransfer
    by_cases htarget : ∃ other ∈ transfers, other.target = transfer.origin
    · obtain ⟨earlier, last, later, hsplit, hlocation, hlater⟩ :=
        exists_last_of_target htarget
      rw [← hlocation] at hlater ⊢
      have hmoved := hlast earlier last later hsplit ⟨transfer, htransfer, hlocation.symm⟩ hlater
      rw [hsplit, performEach_of_last hlater, hmoved]
    · refine performEach_of_forall_ne ?_
      intro other hother heq
      exact htarget ⟨other, hother, heq⟩

/-! ### What holds of all contents -/

def Holds (good : List UInt8 → Prop) (contents : Contents) (location : Location) : Prop :=
  ∃ bytes, contents location = some bytes ∧ good bytes

theorem holds_perform {good : List UInt8 → Prop} {transfer : Transfer}
    (hgood : ∀ bytes, good bytes → good (transfer.bytes bytes))
    (horigin : Holds good contents transfer.origin)
    (hlocation : location = transfer.target ∨ Holds good contents location) :
    Holds good (transfer.perform contents) location := by
  by_cases htarget : location = transfer.target
  · subst htarget
    obtain ⟨bytes, hbytes, hholds⟩ := horigin
    refine ⟨transfer.bytes bytes, ?_, hgood bytes hholds⟩
    simp [perform, hbytes]
  · obtain ⟨bytes, hbytes, hholds⟩ := hlocation.resolve_left htarget
    refine ⟨bytes, ?_, hholds⟩
    rw [perform, Function.update_of_ne htarget, hbytes]

/-- A property that no transfer loses, and that holds at all origins, holds at
all targets in the end. -/
theorem holds_performEach {good : List UInt8 → Prop}
    (hgood : ∀ transfer ∈ transfers, ∀ bytes, good bytes → good (transfer.bytes bytes))
    (horigins : ∀ transfer ∈ transfers, Holds good contents transfer.origin)
    (hlocation : location ∈ transfers.map target ∨ Holds good contents location) :
    Holds good (performEach transfers contents) location := by
  induction transfers generalizing contents with
  | nil => exact hlocation.resolve_left (by simp)
  | cons transfer rest ih =>
      have hhead := hgood transfer List.mem_cons_self
      have horigin := horigins transfer List.mem_cons_self
      refine ih (fun other hother => hgood other (List.mem_cons_of_mem _ hother)) ?_ ?_
      · intro other hother
        exact holds_perform hhead horigin (.inr (horigins other (List.mem_cons_of_mem _ hother)))
      · rw [List.map_cons, List.mem_cons, or_assoc] at hlocation
        rcases hlocation with htarget | hrest | hholds
        · exact .inr (holds_perform hhead horigin (.inl htarget))
        · exact .inl hrest
        · exact .inr (holds_perform hhead horigin (.inr hholds))

end Transfer

/-- The event that reports the installation of a header below a root. -/
def headerEvent (root : Path) (entry : String × Path) : Event :=
  if entry.1 = configHeader then .patched entry.2 (root.join ⟨entry.1⟩)
  else .copied entry.2 (root.join ⟨entry.1⟩)

namespace FileSystem

def place (files : FileSystem) (path : Path) : Location :=
  match files.locate path with
  | .ok location => location
  | .error _ => []

theorem place_eq {files : FileSystem} {path : Path} {location : Location}
    (hlocate : files.locate path = .ok location) : files.place path = location := by
  simp [place, hlocate]

/-- The transfer that installs a header, where paths lead as in a file system. -/
def transfer (files : FileSystem) (root : Path) (entry : String × Path) : Transfer :=
  ⟨entry.1, files.place entry.2, files.place (root.join ⟨entry.1⟩)⟩

/-- Whether headers have been installed below a root, as far as contents go. -/
structure InstallsEach (before after : FileSystem) (root : Path)
    (entries : List (String × Path)) : Prop where
  keeps : before.Extends after
  origins : ∀ entry ∈ entries,
    after.locate entry.2 = .ok (after.transfer root entry).origin
  targets : ∀ entry ∈ entries,
    after.locate (root.join ⟨entry.1⟩) = .ok (after.transfer root entry).target
  files : ∀ entry ∈ entries, after.kind? (after.transfer root entry).target = some .file
  contents : after.contents? =
    Transfer.performEach (entries.map (after.transfer root)) before.contents?

variable {before between after : FileSystem} {root : Path}

theorem AddsDirectories.installsEach (hadds : before.AddsDirectories after) (root : Path) :
    before.InstallsEach after root [] where
  keeps := hadds.extends
  origins := by simp
  targets := by simp
  files := by simp
  contents := hadds.contents

/-- Installations one after the other are one installation: paths that have
been used still lead to the same locations. -/
theorem InstallsEach.append {earlier later : List (String × Path)}
    (hfirst : before.InstallsEach between root earlier)
    (hsecond : between.InstallsEach after root later) :
    before.InstallsEach after root (earlier ++ later) := by
  have horigins : ∀ entry ∈ earlier,
      after.locate entry.2 = .ok (between.transfer root entry).origin :=
    fun entry hentry => hsecond.keeps.locate (hfirst.origins entry hentry)
  have htargets : ∀ entry ∈ earlier,
      after.locate (root.join ⟨entry.1⟩) = .ok (between.transfer root entry).target :=
    fun entry hentry => hsecond.keeps.locate (hfirst.targets entry hentry)
  have hsame : ∀ entry ∈ earlier, after.transfer root entry = between.transfer root entry := by
    intro entry hentry
    unfold transfer
    rw [place_eq (horigins entry hentry), place_eq (htargets entry hentry)]
    rfl
  refine ⟨hfirst.keeps.trans hsecond.keeps, ?_, ?_, ?_, ?_⟩
  · intro entry hentry
    rcases List.mem_append.mp hentry with hentry | hentry
    · rw [hsame entry hentry]
      exact horigins entry hentry
    · exact hsecond.origins entry hentry
  · intro entry hentry
    rcases List.mem_append.mp hentry with hentry | hentry
    · rw [hsame entry hentry]
      exact htargets entry hentry
    · exact hsecond.targets entry hentry
  · intro entry hentry
    rcases List.mem_append.mp hentry with hentry | hentry
    · rw [hsame entry hentry]
      exact hsecond.keeps.kinds _ _ (hfirst.files entry hentry)
    · exact hsecond.files entry hentry
  · rw [hsecond.contents, hfirst.contents, List.map_append, Transfer.performEach_append,
      List.map_congr_left hsame]

theorem InstallsEach.origin_eq {entries : List (String × Path)}
    (hinstalls : before.InstallsEach after root entries)
    {entry : String × Path} {origin : Location} (hlocate : before.locate entry.2 = .ok origin) :
    (after.transfer root entry).origin = origin :=
  place_eq (hinstalls.keeps.locate hlocate)

theorem InstallsEach.holds_targets {entries : List (String × Path)}
    (hinstalls : before.InstallsEach after root entries)
    {good : List UInt8 → Prop}
    (hgood : ∀ (transfer : Transfer) bytes, good bytes → good (transfer.bytes bytes))
    (hsources : ∀ entry ∈ entries, ∃ origin, before.locate entry.2 = .ok origin ∧
      Transfer.Holds good before.contents? origin)
    {entry : String × Path} (hentry : entry ∈ entries) :
    Transfer.Holds good after.contents? (after.transfer root entry).target := by
  rw [hinstalls.contents]
  refine Transfer.holds_performEach (fun transfer _ => hgood transfer) ?_ (.inl ?_)
  · intro transfer htransfer
    obtain ⟨other, hother, rfl⟩ := List.mem_map.mp htransfer
    obtain ⟨origin, hlocate, hholds⟩ := hsources other hother
    rw [hinstalls.origin_eq hlocate]
    exact hholds
  · rw [List.map_map]
    exact List.mem_map.mpr ⟨entry, hentry, rfl⟩

/-- Of the headers that are installed at one location the last one counts. -/
theorem InstallsEach.exists_last {entries : List (String × Path)}
    (hinstalls : before.InstallsEach after root entries) {entry : String × Path}
    (hentry : entry ∈ entries) :
    ∃ earlier last later, entries = earlier ++ last :: later ∧
      (after.transfer root last).target = (after.transfer root entry).target ∧
      (∀ other ∈ later,
        (after.transfer root other).target ≠ (after.transfer root entry).target) ∧
      after.contents? (after.transfer root entry).target =
        (Transfer.performEach (earlier.map (after.transfer root)) before.contents?
          (after.transfer root last).origin).map (after.transfer root last).bytes := by
  have htarget : ∃ transfer ∈ entries.map (after.transfer root),
      transfer.target = (after.transfer root entry).target :=
    ⟨_, List.mem_map_of_mem hentry, rfl⟩
  obtain ⟨_, _, _, hsplit, hsame, hlater⟩ := Transfer.exists_last_of_target htarget
  obtain ⟨earlier, rest, hentries, rfl, hrest⟩ := List.map_eq_append_iff.mp hsplit
  obtain ⟨last, later, rfl, rfl, rfl⟩ := List.map_eq_cons_iff.mp hrest
  refine ⟨earlier, last, later, hentries, hsame, ?_, ?_⟩
  · exact fun other hother => hlater _ (List.mem_map_of_mem hother)
  · rw [← hsame] at hlater ⊢
    rw [hinstalls.contents, hsplit, Transfer.performEach_of_last hlater]

theorem InstallsEach.of_stores {name : String} {source : Path} {origin target : Location}
    {contents : List UInt8} (hsource : before.locate source = .ok origin)
    (hcontents : before.contents? origin = some contents)
    (htarget : after.locate (root.join ⟨name⟩) = .ok target)
    (hstores : before.Stores after target (Transfer.bytes ⟨name, origin, target⟩ contents)) :
    before.InstallsEach after root [(name, source)] := by
  have horigin := hstores.extends.locate hsource
  have htransfer : after.transfer root (name, source) = ⟨name, origin, target⟩ := by
    unfold transfer
    rw [place_eq horigin, place_eq htarget]
  refine ⟨hstores.extends, ?_, ?_, ?_, ?_⟩
  · simpa [htransfer] using horigin
  · simpa [htransfer] using htarget
  · simp [htransfer, hstores.kinds]
  · rw [hstores.contents]
    simp [htransfer, Transfer.performEach, Transfer.perform, hcontents]

theorem addsDirectories_makeParents (files : FileSystem) (path : Path) :
    files.AddsDirectories (files.makeParents path).1 := by
  unfold makeParents
  split
  next => exact .refl files
  next directory _ =>
      have hadds := addsDirectories_makeDirectories files directory
      split
      next made hmade => rwa [hmade] at hadds
      next made fault hmade => rwa [hmade] at hadds

theorem installConfigured_spec {source destination : Path}
    (hinstall : before.installConfigured source destination = (after, .ok ())) :
    ∃ origin target contents, before.locate source = .ok origin ∧
      before.contents? origin = some contents ∧ after.locate destination = .ok target ∧
      before.Stores after target (configure contents) := by
  unfold installConfigured at hinstall
  split at hinstall
  next => cases hinstall
  next contents hread =>
      split at hinstall
      next stored hstore =>
          obtain ⟨rfl, -⟩ := Prod.mk.inj hinstall
          obtain ⟨origin, hsource, hcontents⟩ := read_eq_ok_iff.mp hread
          obtain ⟨target, -, htarget, hstores⟩ := store_spec hstore
          exact ⟨origin, target, contents, hsource, hcontents, htarget, hstores⟩
      next => cases hinstall

theorem copy_of_installVerbatim {source destination : Path}
    (hinstall : before.installVerbatim source destination = (after, .ok ())) :
    before.copy source destination = (after, .ok ()) := by
  unfold installVerbatim at hinstall
  split at hinstall
  next copied hcopy =>
      obtain ⟨rfl, -⟩ := Prod.mk.inj hinstall
      exact hcopy
  next => cases hinstall

theorem eq_of_refused_installConfigured {source destination : Path} {error : InstallError}
    (hrefused : before.installConfigured source destination = (after, .error error)) :
    after = before := by
  unfold installConfigured at hrefused
  split at hrefused
  next => exact (Prod.mk.inj hrefused).1.symm
  next =>
      split at hrefused
      next => cases hrefused
      next stored fault hstore =>
          obtain ⟨rfl, -⟩ := Prod.mk.inj hrefused
          exact eq_of_refused_store hstore

theorem eq_of_refused_installVerbatim {source destination : Path} {error : InstallError}
    (hrefused : before.installVerbatim source destination = (after, .error error)) :
    after = before := by
  unfold installVerbatim at hrefused
  split at hrefused
  next => cases hrefused
  next copied fault hcopy =>
      obtain ⟨rfl, -⟩ := Prod.mk.inj hrefused
      exact eq_of_refused_copy hcopy

/-- Everything that the installation of a header can do. -/
theorem installHeader_cases {name : String} {source : Path} {outcome : Except InstallError Event}
    (hinstall : before.installHeader root name source = (after, outcome)) :
    (∃ error, before.makeParents (root.join ⟨name⟩) = (after, .error error) ∧
        outcome = .error error) ∨
      ∃ made filled, before.makeParents (root.join ⟨name⟩) = (made, .ok ()) ∧
        outcome = filled.map (fun _ => headerEvent root (name, source)) ∧
        (name = configHeader ∧
            made.installConfigured source (root.join ⟨name⟩) = (after, filled) ∨
          name ≠ configHeader ∧
            made.installVerbatim source (root.join ⟨name⟩) = (after, filled)) := by
  unfold installHeader at hinstall
  unfold headerEvent
  dsimp only at hinstall ⊢
  split at hinstall
  next made error hmade =>
      obtain ⟨rfl, rfl⟩ := Prod.mk.inj hinstall
      exact .inl ⟨error, hmade, rfl⟩
  next made hmade =>
      right
      split_ifs at hinstall ⊢ with hconfig
      · split at hinstall
        next written hfill =>
            obtain ⟨rfl, rfl⟩ := Prod.mk.inj hinstall
            exact ⟨made, .ok (), hmade, rfl, .inl ⟨hconfig, hfill⟩⟩
        next written error hfill =>
            obtain ⟨rfl, rfl⟩ := Prod.mk.inj hinstall
            exact ⟨made, .error error, hmade, rfl, .inl ⟨hconfig, hfill⟩⟩
      · split at hinstall
        next written hfill =>
            obtain ⟨rfl, rfl⟩ := Prod.mk.inj hinstall
            exact ⟨made, .ok (), hmade, rfl, .inr ⟨hconfig, hfill⟩⟩
        next written error hfill =>
            obtain ⟨rfl, rfl⟩ := Prod.mk.inj hinstall
            exact ⟨made, .error error, hmade, rfl, .inr ⟨hconfig, hfill⟩⟩

theorem exists_of_installHeader {name : String} {source : Path} {event : Event}
    (hinstall : before.installHeader root name source = (after, .ok event)) :
    event = headerEvent root (name, source) ∧
      ∃ made, before.makeParents (root.join ⟨name⟩) = (made, .ok ()) ∧
        (name = configHeader ∧
            made.installConfigured source (root.join ⟨name⟩) = (after, .ok ()) ∨
          name ≠ configHeader ∧
            made.installVerbatim source (root.join ⟨name⟩) = (after, .ok ())) := by
  rcases installHeader_cases hinstall with ⟨_, -, houtcome⟩ | ⟨made, filled, hmade, houtcome, hfill⟩
  · cases houtcome
  · cases filled with
    | error => cases houtcome
    | ok => exact ⟨Except.ok.inj houtcome, made, hmade, hfill⟩

theorem event_of_installHeader {name : String} {source : Path} {event : Event}
    (hinstall : before.installHeader root name source = (after, .ok event)) :
    event = headerEvent root (name, source) :=
  (exists_of_installHeader hinstall).1

theorem installHeader_spec {name : String} {source : Path} {event : Event}
    (hinstall : before.installHeader root name source = (after, .ok event)) :
    before.InstallsEach after root [(name, source)] := by
  obtain ⟨-, made, hmade, hfill⟩ := exists_of_installHeader hinstall
  have hparents := addsDirectories_makeParents before (root.join ⟨name⟩)
  rw [hmade] at hparents
  refine (hparents.installsEach root).append ?_
  rcases hfill with ⟨hconfig, hfill⟩ | ⟨hconfig, hfill⟩
  · obtain ⟨origin, target, contents, hsource, hcontents, htarget, hstores⟩ :=
      installConfigured_spec hfill
    refine .of_stores hsource hcontents htarget ?_
    rwa [Transfer.bytes, if_pos hconfig]
  · obtain ⟨origin, target, contents, hsource, hcontents, -, htarget, hstores⟩ :=
      copy_spec (copy_of_installVerbatim hfill)
    refine .of_stores hsource hcontents htarget ?_
    rwa [Transfer.bytes, if_neg hconfig]

theorem installEach_spec {entries : List (String × Path)}
    (hrun : (before.installEach root entries).outcome = .ok ()) :
    before.InstallsEach (before.installEach root entries).files root entries := by
  induction entries generalizing before with
  | nil => exact (AddsDirectories.refl before).installsEach root
  | cons entry rest ih =>
      unfold installEach at hrun ⊢
      split at hrun
      next => cases hrun
      next changed event hchanged =>
          exact (installHeader_spec hchanged).append (ih hrun)

/-- An installation that succeeds performs the transfers of its headers in the
order of their names. -/
theorem install_spec {files : FileSystem} {set : HeaderSet} {path : Path}
    (hrun : (files.install set path).outcome = .ok ()) :
    files.InstallsEach (files.install set path).files (path.join ⟨installDirectory⟩)
      set.entries := by
  have hadds := addsDirectories_makeDirectories files (path.join ⟨installDirectory⟩)
  unfold install at hrun ⊢
  dsimp only at hrun ⊢
  split at hrun
  next => cases hrun
  next made hmade =>
      rw [hmade] at hadds
      exact (hadds.installsEach _).append (installEach_spec hrun)

end FileSystem

end Freestanding
