import Freestanding.Proofs.LinkFree
import Freestanding.Resolution

/-!
# Source trees that are not disturbed

A resolution looks at what is at the root of its source tree, below the root and
on the way to it.  If there are no links and the root leads down, it looks at
nothing else, so it comes to the same in two file systems that agree there,
whatever they hold elsewhere.
-/

namespace Freestanding

/-! ### The way of a path -/

theorem isNormal_of_up_not_mem {segments : List Segment} (hup : .up ∉ segments) :
    ∀ component ∈ segments.filterMap Segment.component?, component.IsNormal := by
  intro component hcomponent
  obtain ⟨segment, hsegment, hstands⟩ := List.mem_filterMap.mp hcomponent
  cases segment with
  | blank => cases hstands
  | here => cases hstands
  | up => exact absurd hsegment hup
  | named text => exact ⟨text, (Option.some.inj hstands).symm⟩

/-- Segments that do not lead up lead down. -/
theorem isPrefix_of_foldlM_lead? {segments : List Segment} {location final : Location}
    (hup : .up ∉ segments) (hlead : segments.foldlM Segment.lead? location = some final) :
    location <+: final := by
  rw [← foldlM_lead?_filterMap] at hlead
  obtain ⟨names, rfl, -⟩ := exists_names_of_foldlM_lead? (isNormal_of_up_not_mem hup) hlead
  exact List.prefix_append _ _

theorem Path.parent_mem_components {path : Path} (hup : .up ∈ path.segments) :
    .parent ∈ path.components := by
  have hbehind (segments : List Segment) (hmem : .up ∈ segments) :
      Component.parent ∈ segments.filterMap Segment.component? :=
    List.mem_filterMap.mpr ⟨.up, hmem, rfl⟩
  unfold components
  split
  · exact List.mem_cons_of_mem _ (hbehind _ hup)
  · split
    next segments hsegments =>
        rw [hsegments] at hup
        exact List.mem_cons_of_mem _ (hbehind _ (by simpa using hup))
    next => exact hbehind _ hup

theorem Path.up_not_mem_segments {path : Path}
    (hnormal : ∀ component ∈ path.components, component.IsNormal) : .up ∉ path.segments := by
  intro hup
  simpa [Component.IsNormal] using hnormal _ (parent_mem_components hup)

namespace Kinds

variable {kinds more : Kinds} {purpose : Purpose} {location final : Location}

theorem move_congr {segment : Segment} (hhere : more location = kinds location)
    (hnext : ∀ next, segment.lead? location = some next → more next = kinds next)
    (purpose : Purpose) (rest : List Segment) :
    more.move purpose location segment rest = kinds.move purpose location segment rest := by
  unfold move
  rw [hhere]
  cases segment with
  | blank => rfl
  | here => rfl
  | up => rfl
  | named text =>
      cases hname : Name.ofText? text with
      | none => simp only [hname]
      | some name =>
          have hentry : more (location ++ [name]) = kinds (location ++ [name]) := by
            refine hnext _ ?_
            simp [Segment.lead?, Segment.component?, Component.lead?, hname]
          simp only [hname, hentry]

/-- Without links, where segments lead down to is told by what lies on the way. -/
theorem IsLinkFree.walk_congr (hlinks : kinds.IsLinkFree)
    (hsame : ∀ above, above <+: final → more above = kinds above) {segments : List Segment}
    (hup : .up ∉ segments) (hlead : segments.foldlM Segment.lead? location = some final)
    (onLink onLinkMore : Location → Path → List Segment → Except Fault Place) :
    more.walk purpose onLinkMore location segments =
      kinds.walk purpose onLink location segments := by
  induction segments generalizing location with
  | nil => rfl
  | cons segment rest ih =>
      have hhere := hsame location (isPrefix_of_foldlM_lead? hup hlead)
      have hrest : .up ∉ rest := List.not_mem_of_not_mem_cons hup
      rw [List.foldlM_cons] at hlead
      obtain ⟨next, hnext, hlead⟩ := Option.bind_eq_some_iff.mp hlead
      have hmove : more.move purpose location segment rest =
          kinds.move purpose location segment rest := by
        refine move_congr hhere ?_ purpose rest
        intro other hother
        obtain rfl : next = other := Option.some.inj (hnext.symm.trans hother)
        exact hsame next (isPrefix_of_foldlM_lead? hrest hlead)
      have hlexical := hlinks.move_isLexical purpose location segment rest
      unfold walk
      rw [hmove]
      cases hmoved : kinds.move purpose location segment rest with
      | go other =>
          rw [hmoved] at hlexical
          obtain rfl : next = other := Option.some.inj (hnext.symm.trans hlexical)
          exact ih hrest hlead
      | link target =>
          rw [hmoved] at hlexical
          exact hlexical.elim
      | stop outcome => rfl

theorem IsLinkFree.follow_congr (hlinks : kinds.IsLinkFree)
    (hsame : ∀ above, above <+: final → more above = kinds above) {segments : List Segment}
    (hup : .up ∉ segments) (hlead : segments.foldlM Segment.lead? location = some final)
    (links : Nat) :
    more.follow purpose links location segments = kinds.follow purpose links location segments := by
  cases links with
  | zero => exact hlinks.walk_congr hsame hup hlead _ _
  | succ links => exact hlinks.walk_congr hsame hup hlead _ _

end Kinds

/-! ### Agreement at a location -/

namespace FileSystem

/-- Whether two file systems agree on what lies at a location, below it and on
the way to it. -/
structure AgreesAt (files other : FileSystem) (base : Location) : Prop where
  current : other.current = files.current
  kinds : ∀ location, location <+: base ∨ base <+: location →
    other.kind? location = files.kind? location
  contents : ∀ location, base <+: location → other.contents? location = files.contents? location

variable {files other : FileSystem} {base location : Location} {path : Path}

theorem AgreesAt.locate (hagrees : files.AgreesAt other base)
    (hlinks : Kinds.IsLinkFree files.kind?)
    (hnormal : ∀ component ∈ path.components, component.IsNormal)
    (hlead : path.lead? files.current = some location) (hbelow : base <+: location) :
    other.locate path = files.locate path := by
  have hup := Path.up_not_mem_segments hnormal
  have hstart : other.start path = files.start path := by
    unfold start
    rw [hagrees.current]
  have hsame : ∀ above, above <+: location → other.kind? above = files.kind? above :=
    fun above habove =>
      hagrees.kinds above (List.prefix_or_prefix_of_prefix habove hbelow)
  rw [lead?_eq_foldlM_segments] at hlead
  unfold FileSystem.locate
  rw [resolve_eq_follow, resolve_eq_follow, hstart, hsame _ (isPrefix_of_foldlM_lead? hup hlead),
    Kinds.IsLinkFree.follow_congr hlinks hsame hup hlead linkLimit]

theorem AgreesAt.isDirectory (hagrees : files.AgreesAt other base)
    (hlinks : Kinds.IsLinkFree files.kind?)
    (hnormal : ∀ component ∈ path.components, component.IsNormal)
    (hlead : path.lead? files.current = some location) (hbelow : base <+: location) :
    other.isDirectory path = files.isDirectory path := by
  rw [Bool.eq_iff_iff, isDirectory_iff, isDirectory_iff,
    hagrees.locate hlinks hnormal hlead hbelow]
  refine exists_congr fun place => and_congr_right fun hlocate => ?_
  obtain rfl : location = place :=
    Option.some.inj (hlead.symm.trans (lead?_of_locate hlinks hlocate))
  rw [hagrees.kinds location (.inr hbelow)]

theorem AgreesAt.read (hagrees : files.AgreesAt other base)
    (hlinks : Kinds.IsLinkFree files.kind?)
    (hnormal : ∀ component ∈ path.components, component.IsNormal)
    (hlead : path.lead? files.current = some location) (hbelow : base <+: location) :
    other.read path = files.read path := by
  unfold FileSystem.read
  rw [hagrees.locate hlinks hnormal hlead hbelow]
  cases hlocate : files.locate path with
  | error fault => rfl
  | ok place =>
      obtain rfl : location = place :=
        Option.some.inj (hlead.symm.trans (lead?_of_locate hlinks hlocate))
      have hkind := hagrees.kinds location (.inr hbelow)
      have hcontents := hagrees.contents location hbelow
      unfold kind? at hkind
      unfold contents? at hcontents
      simp only [bind, Except.bind]
      cases hnode : files.root.get? location with
      | none =>
          rw [hnode, Option.map_none, Option.map_eq_none_iff] at hkind
          rw [hkind]
      | some node =>
          rw [hnode, Option.map_some] at hkind
          obtain ⟨twin, htwin, hsame⟩ := Option.map_eq_some_iff.mp hkind
          rw [hnode, htwin, Option.bind_some, Option.bind_some] at hcontents
          rw [htwin]
          cases node <;> cases twin <;> simp_all [Node.kind, Node.contents?]

end FileSystem

/-! ### Paths of locations -/

/-- The name that a text is, or `_` if it cannot be one. -/
def Name.of (text : String) : Name :=
  (Name.ofText? text).getD ⟨"_", by decide⟩

theorem Name.ofText?_text (name : Name) : ofText? name.text = some name := by
  simp [ofText?, name.isEntryName]

theorem Name.toList_text_ne (name : Name) :
    name.text.toList ≠ [] ∧ name.text.toList ≠ ['.'] ∧ name.text.toList ≠ ['.', '.'] := by
  have hentry := name.isEntryName.1
  simp only [List.mem_cons, List.not_mem_nil, or_false, not_or] at hentry
  have htext {piece : List Char} (hpiece : name.text.toList = piece) :
      name.text = String.ofList piece := by
    rw [← hpiece, String.ofList_toList]
  exact ⟨fun hpiece => hentry.1 (htext hpiece), fun hpiece => hentry.2.1 (htext hpiece),
    fun hpiece => hentry.2.2 (htext hpiece)⟩

theorem Name.pieceComponent?_text (name : Name) :
    pieceComponent? name.text.toList = some (.normal name.text) := by
  obtain ⟨hblank, hhere, hup⟩ := name.toList_text_ne
  rw [pieceComponent?, Segment.ofPiece, if_neg hblank, if_neg hhere, if_neg hup,
    String.ofList_toList]
  rfl

theorem Location.pieces_path {location : Location} (hnonempty : location ≠ []) :
    location.path.pieces = location.map fun name => name.text.toList := by
  rw [path, Path.ofNames_eq_ofPieces, List.map_map]
  refine Path.pieces_ofPieces (by simpa using hnonempty) ?_
  intro piece hpiece
  obtain ⟨name, -, rfl⟩ := List.mem_map.mp hpiece
  exact name.isEntryName.2.1

/-- The components of the path of a location are its names. -/
theorem Location.components_path (location : Location) :
    location.path.components = location.map fun name => .normal name.text := by
  cases location with
  | nil => rfl
  | cons name rest =>
      have hrest : (rest.map fun other => other.text.toList).filterMap pieceComponent? =
          rest.map fun other => .normal other.text := by
        rw [List.filterMap_map, ← List.filterMap_eq_map]
        exact List.filterMap_congr fun other _ => other.pieceComponent?_text
      obtain ⟨hblank, hhere, -⟩ := name.toList_text_ne
      rw [Path.components_eq, pieces_path (List.cons_ne_nil _ _), List.map_cons,
        componentsOfPieces, hrest, leadingComponent?, if_neg hblank, if_neg hhere,
        name.pieceComponent?_text]
      rfl

theorem Location.foldlM_lead? (location above : Location) :
    (location.map fun name => Component.normal name.text).foldlM Component.lead? above =
      some (above ++ location) := by
  induction location generalizing above with
  | nil => simp
  | cons name rest ih =>
      rw [List.map_cons, List.foldlM_cons, Component.lead?, Name.ofText?_text, Option.map_some]
      exact (ih _).trans (by simp)

theorem Location.isNormal_of_mem_path (location : Location) :
    ∀ component ∈ location.path.components, component.IsNormal := by
  rw [location.components_path]
  intro component hcomponent
  obtain ⟨name, -, rfl⟩ := List.mem_map.mp hcomponent
  exact ⟨name.text, rfl⟩

namespace SourceTree

theorem lead?_path {tree : SourceTree} {start base : Location}
    (hroot : tree.root.lead? start = some base) (location : Location) :
    (tree.path location).lead? start = some (base ++ location) := by
  rw [path, Path.lead?_join location.isNormal_of_mem_path, hroot, location.components_path]
  exact location.foldlM_lead? base

/-! ### What a resolution looks at -/

/-- Whether the root of a source tree without links leads down to a location at
which another file system agrees. -/
structure IsKept (tree : SourceTree) (other : FileSystem) (base : Location) : Prop where
  isLinkFree : Kinds.IsLinkFree tree.files.kind?
  normal : ∀ component ∈ tree.root.components, component.IsNormal
  lead : tree.root.lead? tree.files.current = some base
  agrees : tree.files.AgreesAt other base

variable {tree : SourceTree} {other : FileSystem} {base : Location}

theorem IsKept.locate_root (hkept : tree.IsKept other base) :
    other.locate tree.root = tree.files.locate tree.root :=
  hkept.agrees.locate hkept.isLinkFree hkept.normal hkept.lead List.prefix_rfl

theorem IsKept.isDirectory_path (hkept : tree.IsKept other base) (location : Location) :
    other.isDirectory (tree.path location) = tree.files.isDirectory (tree.path location) :=
  hkept.agrees.isDirectory hkept.isLinkFree
    (Path.isNormal_of_mem_join hkept.normal location.isNormal_of_mem_path)
    (lead?_path hkept.lead location) (List.prefix_append _ _)

theorem IsKept.read_path (hkept : tree.IsKept other base) (location : Location) :
    other.read (tree.path location) = tree.files.read (tree.path location) :=
  hkept.agrees.read hkept.isLinkFree
    (Path.isNormal_of_mem_join hkept.normal location.isNormal_of_mem_path)
    (lead?_path hkept.lead location) (List.prefix_append _ _)

theorem IsKept.locations_eq (hkept : tree.IsKept other base) :
    (SourceTree.mk other tree.root).locations = tree.locations := by
  apply eq_of_pairwise_of_mem_iff (fun _ _ => List.lt_asymm) (pairwise_locations _)
    (pairwise_locations _)
  intro location
  rw [mem_locations_iff, mem_locations_iff, isEntry_iff, isEntry_iff]
  refine and_congr_right fun _ => ?_
  dsimp only
  rw [hkept.locate_root]
  refine exists_congr fun place => and_congr_right fun hlocate => ?_
  obtain rfl : base = place :=
    Option.some.inj (hkept.lead.symm.trans (FileSystem.lead?_of_locate hkept.isLinkFree hlocate))
  rw [hkept.agrees.kinds _ (.inr (List.prefix_append _ _))]

theorem IsKept.find?_eq (hkept : tree.IsKept other base) :
    (SourceTree.mk other tree.root).find? = tree.find? := by
  have hpath : (SourceTree.mk other tree.root).path = tree.path := rfl
  have hreaches : (SourceTree.mk other tree.root).reaches = tree.reaches := rfl
  have hcandidate : (SourceTree.mk other tree.root).isCandidate = tree.isCandidate := by
    funext header location
    rw [isCandidate, isCandidate, hpath, hreaches, hkept.isDirectory_path]
  funext header
  rw [find?, find?, hkept.locations_eq, hcandidate, hpath]

theorem IsKept.search_eq (hkept : tree.IsKept other base) :
    (SourceTree.mk other tree.root).search = tree.search := by
  funext tables header
  unfold search
  rw [hkept.find?_eq]
  cases hfind : tree.find? (tables.searchName header) with
  | none => rfl
  | some found =>
      obtain ⟨location, -, rfl⟩ := Option.map_eq_some_iff.mp hfind
      simp only [FileSystem.dependencies, hkept.read_path]

theorem IsKept.capacity_eq (hkept : tree.IsKept other base) :
    (SourceTree.mk other tree.root).capacity = tree.capacity := by
  have hpath : (SourceTree.mk other tree.root).path = tree.path := rfl
  simp only [capacity, hkept.locations_eq, hpath, hkept.read_path]

theorem round_eq_of_search_eq {again : SourceTree} (hsearch : again.search = tree.search) :
    again.round = tree.round := by
  funext tables headers
  induction headers with
  | nil => rfl
  | cons header rest ih =>
      unfold round
      rw [hsearch, ih]

theorem resolveFrom_eq_of_search_eq {again : SourceTree} (hsearch : again.search = tree.search) :
    again.resolveFrom = tree.resolveFrom := by
  funext tables limit set headers
  induction limit generalizing set headers with
  | zero => cases headers <;> rfl
  | succ limit ih =>
      cases headers with
      | nil => rfl
      | cons header rest =>
          unfold resolveFrom
          rw [round_eq_of_search_eq hsearch]
          simp only [ih]

/-- A resolution comes to the same in a file system that agrees at the root of
its source tree. -/
theorem IsKept.resolve_eq (hkept : tree.IsKept other base) :
    (SourceTree.mk other tree.root).resolve = tree.resolve := by
  funext tables headers
  rw [resolve, resolve, hkept.capacity_eq, resolveFrom_eq_of_search_eq hkept.search_eq]

end SourceTree

end Freestanding
