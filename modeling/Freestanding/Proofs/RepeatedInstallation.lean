import Freestanding.Proofs.ExactInstallation
import Freestanding.Proofs.RefilledTree

/-!
# Repeated installations

What has been done once can be done again.  The directories of an installation
that succeeded are there, its sources are still files, and its headers have
become files that can be written over.  So the installation can be repeated,
which changes nothing but contents.

Contents do not change either, provided that no header is installed where the
source of one lies: the repetition then moves the same bytes to the same places.
-/

namespace Freestanding

/-- Transfers that spare their origins move the same bytes when they are made
again. -/
theorem Transfer.performEach_performEach {transfers : List Transfer}
    (hspared : ∀ transfer ∈ transfers, ∀ other ∈ transfers, other.target ≠ transfer.origin)
    (contents : Contents) :
    performEach transfers (performEach transfers contents) = performEach transfers contents := by
  funext location
  by_cases htarget : ∃ transfer ∈ transfers, transfer.target = location
  · obtain ⟨earlier, transfer, later, hsplit, rfl, hlater⟩ := exists_last_of_target htarget
    have hspares := hspared transfer (by simp [hsplit])
    have hearlier : ∀ other ∈ earlier, other.target ≠ transfer.origin :=
      fun other hother => hspares other (by simp [hsplit, hother])
    have hmoved (held : Contents) :
        performEach transfers held transfer.target =
          (held transfer.origin).map transfer.bytes := by
      rw [hsplit, performEach_of_last hlater, performEach_of_forall_ne hearlier]
    rw [hmoved, hmoved, performEach_of_forall_ne hspares]
  · refine performEach_of_forall_ne ?_
    exact fun transfer htransfer hlocation => htarget ⟨transfer, htransfer, hlocation⟩

namespace FileSystem

variable {files before after now : FileSystem} {path source destination : Path}
  {contents : List UInt8}

/-! ### Operations -/

theorem makeDirectories_again (hmake : before.makeDirectories path = (after, .ok ()))
    (hextends : after.Extends now) : now.makeDirectories path = (now, .ok ()) := by
  by_cases hempty : path.text = ""
  · exact makeDirectories_of_text_eq_empty hempty
  · have hdirectory := isDirectory_of_makeDirectories hempty (congrArg Prod.snd hmake)
    rw [hmake] at hdirectory
    exact makeDirectories_of_isDirectory (hextends.isDirectory hdirectory)

theorem read_again (hread : before.read path = .ok contents) (hextends : before.Extends now) :
    ∃ held, now.read path = .ok held := by
  obtain ⟨location, hlocate, hcontents⟩ := read_eq_ok_iff.mp hread
  obtain ⟨held, hheld⟩ :=
    exists_contents_of_kind? (hextends.kinds _ _ (kind?_of_contents? hcontents))
  exact ⟨held, read_eq_ok_iff.mpr ⟨location, hextends.locate hlocate, hheld⟩⟩

theorem store_again (hstore : before.store path contents = (after, .ok ()))
    (hextends : after.Extends now) (held : List UInt8) :
    ∃ again, now.store path held = (again, .ok ()) ∧ now.Refills again := by
  obtain ⟨target, hwritable, -, hstores⟩ := store_spec hstore
  have hfile := hextends.kinds _ _ hstores.kind?_self
  have hagain := (hstores.extends.trans hextends).writable_again hwritable hfile
  exact ⟨_, store_of_writable hagain held, refills_fill_fill hfile [] held⟩

theorem copy_again (hcopy : before.copy source destination = (after, .ok ()))
    (hextends : after.Extends now) :
    ∃ again, now.copy source destination = (again, .ok ()) ∧ now.Refills again := by
  obtain ⟨origin, target, contents, hlocate, hcontents, hwritable, -, hstores⟩ := copy_spec hcopy
  have hkept := hstores.extends.trans hextends
  have hfile := hextends.kinds _ _ hstores.kind?_self
  obtain ⟨held, hheld⟩ :=
    exists_contents_of_kind? (hkept.kinds _ _ (kind?_of_contents? hcontents))
  have hagain := hkept.writable_again hwritable hfile
  exact ⟨_, copy_of_writable (hkept.locate hlocate) hheld hagain, refills_fill_fill hfile [] _⟩

theorem installConfigured_again
    (hinstall : before.installConfigured source destination = (after, .ok ()))
    (hextends : after.Extends now) :
    ∃ again, now.installConfigured source destination = (again, .ok ()) ∧ now.Refills again := by
  obtain ⟨_, _, _, -, -, -, hstores⟩ := installConfigured_spec hinstall
  unfold installConfigured at hinstall
  split at hinstall
  next => cases hinstall
  next contents hread =>
      split at hinstall
      next stored hstore =>
          obtain ⟨rfl, -⟩ := Prod.mk.inj hinstall
          obtain ⟨held, hheld⟩ := read_again hread (hstores.extends.trans hextends)
          obtain ⟨again, hagain, hrefills⟩ := store_again hstore hextends (configure held)
          refine ⟨again, ?_, hrefills⟩
          simp only [installConfigured, hheld, hagain]
      next => cases hinstall

theorem installVerbatim_again
    (hinstall : before.installVerbatim source destination = (after, .ok ()))
    (hextends : after.Extends now) :
    ∃ again, now.installVerbatim source destination = (again, .ok ()) ∧ now.Refills again := by
  obtain ⟨again, hagain, hrefills⟩ := copy_again (copy_of_installVerbatim hinstall) hextends
  refine ⟨again, ?_, hrefills⟩
  simp only [installVerbatim, hagain]

end FileSystem

/-! ### Requests -/

namespace Request

variable {before after now : FileSystem} {request : Request} {requests : List Request}

theorem extends_perform (request : Request) (files : FileSystem) :
    files.Extends (request.perform files).1 := by
  rcases request.perform_cases files with
    ⟨directory, rfl, hmade⟩ | hsame | ⟨target, contents, -, hstores⟩
  · rw [hmade]
    exact (files.addsDirectories_makeDirectories directory).extends
  · rw [hsame]
    exact .refl files
  · exact hstores.extends

theorem extends_performEach (requests : List Request) (files : FileSystem) :
    files.Extends (performEach files requests).1 := by
  induction requests generalizing files with
  | nil => exact .refl files
  | cons request rest ih =>
      have hfirst := request.extends_perform files
      rw [performEach]
      cases hperform : request.perform files with
      | mk changed outcome =>
          rw [hperform] at hfirst
          cases outcome with
          | error => exact hfirst
          | ok => exact hfirst.trans (ih changed)

/-- A request that was performed can be performed again, and then it changes
contents only. -/
theorem perform_again (hperform : request.perform before = (after, .ok ()))
    (hextends : after.Extends now) :
    ∃ again, request.perform now = (again, .ok ()) ∧ now.Refills again := by
  cases request with
  | create directory =>
      unfold perform at hperform ⊢
      dsimp only at hperform ⊢
      split at hperform
      next made hmade =>
          obtain ⟨rfl, -⟩ := Prod.mk.inj hperform
          rw [FileSystem.makeDirectories_again hmade hextends]
          exact ⟨now, rfl, .refl now⟩
      next => simp at hperform
  | configure source destination =>
      exact FileSystem.installConfigured_again hperform hextends
  | copy source destination =>
      exact FileSystem.installVerbatim_again hperform hextends

theorem performEach_again (hperform : performEach before requests = (after, .ok ()))
    (hextends : after.Extends now) :
    ∃ again, performEach now requests = (again, .ok ()) ∧ now.Refills again := by
  induction requests generalizing before now with
  | nil => exact ⟨now, rfl, .refl now⟩
  | cons request rest ih =>
      rw [performEach] at hperform
      split at hperform
      next changed hchanged =>
          have hlater := extends_performEach rest changed
          rw [hperform] at hlater
          obtain ⟨again, hagain, hrefills⟩ := perform_again hchanged (hlater.trans hextends)
          obtain ⟨last, hlast, hmore⟩ := ih hperform (hextends.trans hrefills.extends)
          refine ⟨last, ?_, hrefills.trans hmore⟩
          rw [performEach, hagain]
          exact hlast
      next => simp at hperform

end Request

/-! ### Installations -/

namespace FileSystem

variable {files before after : FileSystem} {set : HeaderSet} {path root : Path}

/-- An installation that succeeded can be repeated, and then it changes contents
only. -/
theorem install_again (hrun : (files.install set path).outcome = .ok ()) :
    ((files.install set path).files.install set path).outcome = .ok () ∧
      (files.install set path).files.Refills
        ((files.install set path).files.install set path).files := by
  have hperform := files.install_eq_performEach set path
  rw [hrun] at hperform
  obtain ⟨again, hagain, hrefills⟩ := Request.performEach_again hperform.symm (.refl _)
  rw [← install_eq_performEach, Prod.mk.injEq] at hagain
  obtain ⟨rfl, hagain⟩ := hagain
  exact ⟨hagain, hrefills⟩

theorem Refills.transfer_eq (hrefills : before.Refills after) :
    after.transfer root = before.transfer root := by
  have hplace (path : Path) : after.place path = before.place path := by
    unfold place
    rw [locate_congr hrefills.current hrefills.kind?_eq]
  funext entry
  simp only [transfer, hplace]

/-- An installation that succeeded changes nothing when it is repeated, if no
header has been installed where the source of one lies. -/
theorem install_install (hrun : (files.install set path).outcome = .ok ())
    (hspared : ∀ entry ∈ set.entries, ∀ other ∈ set.entries,
      ((files.install set path).files.transfer (path.join ⟨installDirectory⟩) other).target ≠
        ((files.install set path).files.transfer (path.join ⟨installDirectory⟩) entry).origin) :
    ((files.install set path).files.install set path).outcome = .ok () ∧
      ((files.install set path).files.install set path).files = (files.install set path).files := by
  obtain ⟨hagain, hrefills⟩ := install_again hrun
  refine ⟨hagain, hrefills.eq_of_contents?_eq ?_⟩
  rw [(install_spec hagain).contents, hrefills.transfer_eq, (install_spec hrun).contents]
  refine Transfer.performEach_performEach ?_ files.contents?
  intro transfer htransfer other hother
  obtain ⟨entry, hentry, rfl⟩ := List.mem_map.mp htransfer
  obtain ⟨second, hsecond, rfl⟩ := List.mem_map.mp hother
  exact hspared entry hentry second hsecond

/-- Without links, sources outside of the install directory are spared. -/
theorem install_install_of_isOutside (hlinks : Kinds.IsLinkFree files.kind?)
    (hplain : ∀ name ∈ set.names, (Path.mk name).IsPlain)
    (hsources : ∀ entry ∈ set.entries,
      entry.2.IsOutside (path.join ⟨installDirectory⟩) files.current)
    (hrun : (files.install set path).outcome = .ok ()) :
    ((files.install set path).files.install set path).outcome = .ok () ∧
      ((files.install set path).files.install set path).files = (files.install set path).files := by
  obtain ⟨base, hbase, -⟩ := lead?_of_install hlinks hrun
  have hlinksAfter := (changesWithin_install hlinks set path).isLinkFree
  have hinstalls := install_spec hrun
  refine install_install hrun ?_
  intro entry hentry other hother
  have houtside := hsources entry hentry _ (hinstalls.lead?_origin hlinksAfter hentry) base hbase
  exact hinstalls.target_ne hlinksAfter
    (fun third hthird => hplain third.1 (List.mem_map_of_mem hthird)) hbase houtside hother

end FileSystem

end Freestanding
