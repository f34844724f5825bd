import Freestanding.Proofs.InstallationRequests
import Freestanding.Proofs.PathComponents
import Freestanding.Proofs.RenderedNames
import Freestanding.Proofs.ResolutionOutcome

/-!
# Where an extraction can write

Included names are arbitrary text, and they are joined to the install directory
as they are.  Nothing is written elsewhere nevertheless: a name that is found
ends the location of an entry, so its components are names of entries.  Only the
names that have a substitute are not themselves searched for, and these come from
the tables.
-/

namespace Freestanding

/-! ### Names that are found -/

theorem Location.isPlain_of_endsWith {location : Location} {name : String}
    (hends : location.endsWith name = true) (hnonempty : name ≠ "") : (Path.mk name).IsPlain where
  ne_nil := Path.components_ne_nil hnonempty
  normal component hcomponent := by
    have hsuffix := List.isSuffixOf_iff_suffix.mp hends
    obtain ⟨entry, -, rfl⟩ := List.mem_map.mp (hsuffix.mem hcomponent)
    exact ⟨entry.text, rfl⟩

namespace SourceTree

variable {tree : SourceTree} {tables : Tables} {headers : List String} {set : HeaderSet}

theorem isClosed_ne_empty (tree : SourceTree) (tables : Tables) (set : HeaderSet)
    (hheaders : "" ∉ headers) : tree.IsClosed tables headers set {name | name ≠ ""} where
  headers name hname := by
    rintro rfl
    exact hheaders hname
  included name _ location _ includes hincludes required hrequired _ := by
    obtain ⟨contents, -, rfl⟩ := FileSystem.dependencies_eq_ok hincludes
    exact (isHeaderName_of_mem_includes hrequired).ne_empty

/-- The names of a resolution that succeeds lead down, whatever the headers
include. -/
theorem isPlain_of_mem_names (hheaders : "" ∉ headers)
    (haliases : ∀ pair ∈ tables.aliases, (Path.mk pair.1).IsPlain)
    (hresolve : (tree.resolve tables headers).outcome = .ok set) {name : String}
    (hname : name ∈ set.names) : (Path.mk name).IsPlain := by
  obtain ⟨_, hfrontier⟩ := exists_frontier_of_resolve hresolve
  obtain ⟨depth, -, hdepth⟩ := (hfrontier.located_iff name).mp hname
  have hnonempty : name ≠ "" :=
    hfrontier.mem_of_isClosed (isClosed_ne_empty tree tables set hheaders) hdepth
  obtain ⟨found, hsearch⟩ := hfrontier.search_of_mem hname
  have hfind := (search_eq_ok hsearch).1
  rw [Tables.searchName] at hfind
  cases hsubstitute : tables.substitute? name with
  | some substitute => exact haliases _ (mem_of_lookup hsubstitute)
  | none =>
      rw [hsubstitute, Option.getD_none, find?, Option.map_eq_some_iff] at hfind
      obtain ⟨location, hfirst, -⟩ := hfind
      have hcandidate := List.find?_some hfirst
      simp only [isCandidate, Bool.and_eq_true] at hcandidate
      exact Location.isPlain_of_endsWith hcandidate.1.1 hnonempty

end SourceTree

/-! ### Paths below a directory -/

/-- Whether a path consists of another one and of names behind it. -/
def Path.IsBelow (path directory : Path) : Prop :=
  ∃ behind, path.components = directory.components ++ behind ∧
    ∀ component ∈ behind, component.IsNormal

theorem Path.IsPlain.isBelow_join {name : Path} (hplain : name.IsPlain) (root : Path) :
    (root.join name).IsBelow root :=
  ⟨name.components, root.components_join hplain.normal, hplain.normal⟩

theorem Path.IsPlain.isBelow_parent {name root parent : Path} (hplain : name.IsPlain)
    (hparent : (root.join name).parent? = some parent) : parent.IsBelow root := by
  refine ⟨name.components.dropLast, ?_, ?_⟩
  · rw [components_of_parent? hparent, root.components_join hplain.normal,
      List.dropLast_append_of_ne_nil hplain.ne_nil]
  · intro component hcomponent
    exact hplain.normal component ((List.dropLast_prefix _).mem hcomponent)

namespace Request

variable {root path : Path} {set : HeaderSet} {request : Request}

theorem isBelow_of_mem_headerRequests {entry : String × Path} (hplain : (Path.mk entry.1).IsPlain)
    (hrequest : request ∈ headerRequests root entry) : request.destination.IsBelow root := by
  rcases destination_of_mem_headerRequests hrequest with hdestination | hparent
  · rw [hdestination]
    exact hplain.isBelow_join root
  · exact hplain.isBelow_parent hparent

theorem isBelow_of_mem_installRequests (hplain : ∀ name ∈ set.names, (Path.mk name).IsPlain)
    (hrequest : request ∈ installRequests set path) :
    request.destination.IsBelow (path.join ⟨installDirectory⟩) := by
  rcases List.mem_cons.mp hrequest with rfl | hrequest
  · exact ⟨[], (List.append_nil _).symm, by simp⟩
  · obtain ⟨entry, hentry, hrequest⟩ := List.mem_flatMap.mp hrequest
    exact isBelow_of_mem_headerRequests (hplain entry.1 (List.mem_map_of_mem hentry)) hrequest

end Request

theorem isPlain_of_mem_standard_aliases :
    ∀ pair ∈ Tables.standard.aliases, (Path.mk pair.1).IsPlain := by
  decide +kernel

theorem FileSystem.isBelow_of_mem_extractRequests {files : FileSystem} {path root : Path}
    {request : Request} (hrequest : request ∈ files.extractRequests path root) :
    request.destination.IsBelow (path.join ⟨installDirectory⟩) := by
  unfold extractRequests at hrequest
  split at hrequest
  next set hresolve =>
      refine Request.isBelow_of_mem_installRequests (fun name hname => ?_) hrequest
      exact SourceTree.isPlain_of_mem_names (by decide) isPlain_of_mem_standard_aliases hresolve
        hname
  next => simp at hrequest

/-- The names that a resolution finds lead down, whatever the headers include, so
everything that an installation of them asks for is at or below its directory.
The same holds of an extraction: its own tables and headers are as they are to
be. -/
theorem extract_isContained {tree : SourceTree} {tables : Tables} {headers : List String}
    {set : HeaderSet} (hheaders : "" ∉ headers)
    (haliases : ∀ pair ∈ tables.aliases, (Path.mk pair.1).IsPlain)
    (hresolve : (tree.resolve tables headers).outcome = .ok set) :
    (∀ name ∈ set.names, (Path.mk name).IsPlain) ∧
      (∀ (files : FileSystem) (path : Path),
        ((files.install set path).files, (files.install set path).outcome) =
            Request.performEach files (installRequests set path) ∧
          ∀ request ∈ installRequests set path,
            request.destination.IsBelow (path.join ⟨installDirectory⟩)) ∧
      ("" ∉ freestandingHeaders ∧ ∀ pair ∈ Tables.standard.aliases, (Path.mk pair.1).IsPlain) ∧
      ∀ (files : FileSystem) (path root : Path),
        (files.extract path root).files =
            (Request.performEach files (files.extractRequests path root)).1 ∧
          ∀ request ∈ files.extractRequests path root,
            request.destination.IsBelow (path.join ⟨installDirectory⟩) := by
  have hplain (name : String) (hname : name ∈ set.names) : (Path.mk name).IsPlain :=
    SourceTree.isPlain_of_mem_names hheaders haliases hresolve hname
  refine ⟨hplain, ?_, ⟨by decide, isPlain_of_mem_standard_aliases⟩, ?_⟩
  · intro files path
    refine ⟨files.install_eq_performEach set path, ?_⟩
    exact fun request hrequest => Request.isBelow_of_mem_installRequests hplain hrequest
  · intro files path root
    refine ⟨files.files_extract_eq_performEach path root, ?_⟩
    exact fun request hrequest => FileSystem.isBelow_of_mem_extractRequests hrequest

theorem extract_isContained_mutual :
    "" ∉ ["a"] ∧ (∀ pair ∈ SourceTree.mutualTables.aliases, (Path.mk pair.1).IsPlain) ∧
      (SourceTree.mutualTree.resolve SourceTree.mutualTables ["a"]).outcome =
        .ok SourceTree.mutualSet ∧
      (∀ name ∈ SourceTree.mutualSet.names, (Path.mk name).IsPlain) ∧
      ∀ (files : FileSystem) (path : Path),
        ((files.install SourceTree.mutualSet path).files,
              (files.install SourceTree.mutualSet path).outcome) =
            Request.performEach files (installRequests SourceTree.mutualSet path) ∧
          ∀ request ∈ installRequests SourceTree.mutualSet path,
            request.destination.IsBelow (path.join ⟨installDirectory⟩) := by
  have haliases : ∀ pair ∈ SourceTree.mutualTables.aliases, (Path.mk pair.1).IsPlain := by
    decide +kernel
  have hresolve : (SourceTree.mutualTree.resolve SourceTree.mutualTables ["a"]).outcome =
      .ok SourceTree.mutualSet := rfl
  have hcontained := extract_isContained (by decide) haliases hresolve
  exact ⟨by decide, haliases, hresolve, hcontained.1, hcontained.2.1⟩

end Freestanding
