import Freestanding.Proofs.InstallationRequests
import Freestanding.Proofs.LinkFree

/-!
# The extent of an installation

In a file system without links, a request changes what lies at its destination
and at locations on the way to it.  All destinations of an installation are its
directory, the files of its headers and the directories of these, so an
installation changes nothing anywhere else.  It need not succeed for that.
-/

namespace Freestanding

namespace FileSystem

/-- Whether kinds have changed at some locations only, and there is no link. -/
structure ChangesWithin (before after : FileSystem) (touched : Location → Prop) : Prop where
  current : after.current = before.current
  isLinkFree : Kinds.IsLinkFree after.kind?
  kinds : ∀ location, ¬ touched location → after.kind? location = before.kind? location

variable {files before between after : FileSystem} {path : Path} {location : Location}
  {touched more : Location → Prop}

theorem ChangesWithin.refl (hlinks : Kinds.IsLinkFree files.kind?) (touched : Location → Prop) :
    files.ChangesWithin files touched :=
  ⟨rfl, hlinks, fun _ _ => rfl⟩

theorem ChangesWithin.trans (hfirst : before.ChangesWithin between touched)
    (hsecond : between.ChangesWithin after touched) : before.ChangesWithin after touched where
  current := hsecond.current.trans hfirst.current
  isLinkFree := hsecond.isLinkFree
  kinds location hnot := (hsecond.kinds location hnot).trans (hfirst.kinds location hnot)

theorem ChangesWithin.mono (hchanges : before.ChangesWithin after touched)
    (hmore : ∀ location, touched location → more location) : before.ChangesWithin after more where
  current := hchanges.current
  isLinkFree := hchanges.isLinkFree
  kinds location hnot := hchanges.kinds location (mt (hmore location) hnot)

theorem changesWithin_of_update (hlinks : Kinds.IsLinkFree before.kind?)
    (hcurrent : after.current = before.current) {kind : Kind}
    (hkind : ∀ target, kind ≠ .link target)
    (hkinds : after.kind? = Function.update before.kind? location (some kind)) :
    before.ChangesWithin after (· = location) where
  current := hcurrent
  isLinkFree := by
    rw [hkinds]
    exact hlinks.update location hkind
  kinds other hother := by
    rw [hkinds]
    exact Function.update_of_ne hother ..

theorem changesWithin_of_makeDirectory (hlinks : Kinds.IsLinkFree before.kind?)
    (hmake : before.makeDirectory path = .ok after) :
    before.ChangesWithin after (path.Passes before.current) := by
  obtain ⟨location, hresolve, -, hcurrent, hkinds, -⟩ := makeDirectory_spec hmake
  refine (changesWithin_of_update hlinks hcurrent (by simp) hkinds).mono ?_
  rintro other rfl
  exact Path.passes_of_lead? (lead?_of_resolve hlinks hresolve)

theorem changesWithin_makeWithParents (hlinks : Kinds.IsLinkFree files.kind?) {paths : List Path}
    (hpaths : ∀ above ∈ paths, above.components <+: path.components) :
    files.ChangesWithin (files.makeWithParents paths).1 (path.Passes files.current) := by
  induction paths with
  | nil => exact .refl hlinks _
  | cons first parents ih =>
      obtain ⟨hfirst, hparents⟩ := List.forall_mem_cons.mp hpaths
      have hmakes {made : FileSystem} (hmake : files.makeDirectory first = .ok made) :
          files.ChangesWithin made (path.Passes files.current) :=
        (changesWithin_of_makeDirectory hlinks hmake).mono fun _ hpasses =>
          hpasses.of_isPrefix hfirst
      have habove := ih hparents
      unfold makeWithParents
      split
      · exact .refl hlinks _
      · split
        next made hmade => exact hmakes hmade
        next =>
          split
          next above fault hfault =>
              rw [hfault] at habove
              exact habove
          next above hok =>
              rw [hok] at habove
              split
              next made hmade =>
                  refine habove.trans ?_
                  refine (changesWithin_of_makeDirectory habove.isLinkFree hmade).mono ?_
                  intro _ hpasses
                  rw [habove.current] at hpasses
                  exact hpasses.of_isPrefix hfirst
              next => exact habove
        next => exact .refl hlinks _

theorem changesWithin_makeDirectories (hlinks : Kinds.IsLinkFree files.kind?) (path : Path) :
    files.ChangesWithin (files.makeDirectories path).1 (path.Passes files.current) := by
  refine changesWithin_makeWithParents hlinks (List.forall_mem_cons.mpr ⟨List.prefix_rfl, ?_⟩)
  exact fun above habove => (Path.components_of_mem_parents habove).trans (List.dropLast_prefix _)

theorem Stores.changesWithin {contents : List UInt8} (hlinks : Kinds.IsLinkFree before.kind?)
    (hstores : before.Stores after location contents) (hlocate : after.locate path = .ok location) :
    before.ChangesWithin after (path.Passes before.current) := by
  have hchanges := changesWithin_of_update hlinks hstores.current (by simp) hstores.kinds
  refine hchanges.mono ?_
  rintro other rfl
  rw [← hchanges.current]
  exact Path.passes_of_lead? (lead?_of_locate hchanges.isLinkFree hlocate)

end FileSystem

namespace Request

variable {files : FileSystem}

/-- A request changes kinds only on the way to its destination. -/
theorem changesWithin_perform (hlinks : Kinds.IsLinkFree files.kind?) (request : Request) :
    files.ChangesWithin (request.perform files).1 (request.destination.Passes files.current) := by
  rcases request.perform_cases files with
    ⟨directory, rfl, hmade⟩ | hsame | ⟨target, contents, hlocate, hstores⟩
  · rw [hmade]
    exact FileSystem.changesWithin_makeDirectories hlinks directory
  · rw [hsame]
    exact .refl hlinks _
  · exact hstores.changesWithin hlinks hlocate

/-- Requests change kinds only on the ways to their destinations. -/
theorem changesWithin_performEach (hlinks : Kinds.IsLinkFree files.kind?)
    (requests : List Request) :
    files.ChangesWithin (performEach files requests).1 fun location =>
      ∃ request ∈ requests, request.destination.Passes files.current location := by
  induction requests generalizing files with
  | nil => exact .refl hlinks _
  | cons request rest ih =>
      have hfirst := (changesWithin_perform hlinks request).mono fun location hpasses =>
        (⟨request, List.mem_cons_self, hpasses⟩ : ∃ other ∈ request :: rest,
          other.destination.Passes files.current location)
      rw [performEach]
      cases hperform : request.perform files with
      | mk changed outcome =>
          rw [hperform] at hfirst
          cases outcome with
          | error => exact hfirst
          | ok =>
              refine hfirst.trans ((ih hfirst.isLinkFree).mono ?_)
              rintro location ⟨other, hother, hpasses⟩
              rw [hfirst.current] at hpasses
              exact ⟨other, List.mem_cons_of_mem _ hother, hpasses⟩

theorem destination_isPrefix {root : Path} {entry : String × Path} {request : Request}
    (hrequest : request ∈ headerRequests root entry) :
    request.destination.components <+: (root.join ⟨entry.1⟩).components := by
  rcases destination_of_mem_headerRequests hrequest with hdestination | hparent
  · exact hdestination ▸ List.prefix_rfl
  · rw [Path.components_of_parent? hparent]
    exact List.dropLast_prefix _

end Request

/-! ### The way of an installation -/

theorem isPlain_installDirectory : (Path.mk installDirectory).IsPlain := by
  decide +kernel

theorem FileSystem.changesWithin_install {files : FileSystem}
    (hlinks : Kinds.IsLinkFree files.kind?) (set : HeaderSet) (path : Path) :
    files.ChangesWithin (files.install set path).files fun location =>
      ∃ request ∈ installRequests set path,
        request.destination.Passes files.current location := by
  have hchanges := Request.changesWithin_performEach hlinks (installRequests set path)
  rwa [← files.install_eq_performEach set path] at hchanges

/-- What the requests of an installation pass is on the way to its directory or
to one of its files. -/
theorem Request.isPrefix_of_passes {set : HeaderSet} {path : Path} {request : Request}
    {start base location : Location}
    (hnormal : ∀ component ∈ path.components, component.IsNormal)
    (hplain : ∀ name ∈ set.names, (Path.mk name).IsPlain)
    (hbase : (path.join ⟨installDirectory⟩).lead? start = some base)
    (htargets : ∀ name ∈ set.names, ∃ target,
      ((path.join ⟨installDirectory⟩).join ⟨name⟩).lead? start = some target)
    (hrequest : request ∈ installRequests set path)
    (hpasses : request.destination.Passes start location) :
    location <+: base ∨ ∃ name ∈ set.names, ∃ target,
      ((path.join ⟨installDirectory⟩).join ⟨name⟩).lead? start = some target ∧
        location <+: target := by
  have hroot := Path.isNormal_of_mem_join hnormal isPlain_installDirectory.normal
  rcases List.mem_cons.mp hrequest with rfl | hrequest
  · exact .inl (hpasses.isPrefix hroot hbase)
  · obtain ⟨entry, hentry, hrequest⟩ := List.mem_flatMap.mp hrequest
    have hname : entry.1 ∈ set.names := List.mem_map_of_mem hentry
    obtain ⟨target, htarget⟩ := htargets entry.1 hname
    have hfile := Path.isNormal_of_mem_join hroot (hplain entry.1 hname).normal
    have hway := hpasses.of_isPrefix (destination_isPrefix hrequest)
    exact .inr ⟨entry.1, hname, target, htarget, hway.isPrefix hfile htarget⟩

end Freestanding
