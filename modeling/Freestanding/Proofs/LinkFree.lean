import Freestanding.Proofs.LeastMatch
import Freestanding.Proofs.PathComponents

/-!
# File systems without links

Without links, the components of a path tell where it leads, one step for each of
them.  What lies there decides only whether the path leads anywhere at all.  On
the way down every component leads to an entry of its name, so two paths of names
that start at one location lead to one location exactly if they have the same
components.
-/

namespace Freestanding

/-! ### Where components lead -/

/-- Where a component leads from a location if no link is on the way. -/
def Component.lead? (location : Location) : Component → Option Location
  | .root => some []
  | .current => some location
  | .parent => some location.dropLast
  | .normal text => (Name.ofText? text).map fun name => location ++ [name]

/-- Where a path leads from the current directory if no link is on the way. -/
def Path.lead? (start : Location) (path : Path) : Option Location :=
  path.components.foldlM Component.lead? start

/-- Whether a location is one that a path or the beginning of it leads to. -/
def Path.Passes (path : Path) (start location : Location) : Prop :=
  ∃ front, front <+: path.components ∧ front.foldlM Component.lead? start = some location

theorem Path.passes_of_lead? {path : Path} {start location : Location}
    (hlead : path.lead? start = some location) : path.Passes start location :=
  ⟨path.components, List.prefix_rfl, hlead⟩

/-- Whether a path leads to no location at or below that of another. -/
def Path.IsOutside (path other : Path) (start : Location) : Prop :=
  ∀ location ∈ path.lead? start, ∀ base ∈ other.lead? start, ¬ base <+: location

instance (path other : Path) (start : Location) : Decidable (path.IsOutside other start) :=
  inferInstanceAs (Decidable (∀ location ∈ _, ∀ base ∈ _, ¬ base <+: location))

theorem Path.Passes.of_isPrefix {path longer : Path} {start location : Location}
    (hpasses : path.Passes start location) (hlonger : path.components <+: longer.components) :
    longer.Passes start location := by
  obtain ⟨front, hfront, hlead⟩ := hpasses
  exact ⟨front, hfront.trans hlonger, hlead⟩

theorem Name.text_of_ofText? {text : String} {name : Name} (hname : Name.ofText? text = some name) :
    name.text = text := by
  unfold ofText? at hname
  split_ifs at hname
  obtain rfl := Option.some.inj hname
  rfl

/-- Components that are names lead down, each to an entry of its name. -/
theorem exists_names_of_foldlM_lead? {components : List Component} {start location : Location}
    (hnormal : ∀ component ∈ components, component.IsNormal)
    (hlead : components.foldlM Component.lead? start = some location) :
    ∃ names : List Name, location = start ++ names ∧
      components = names.map fun name => .normal name.text := by
  induction components generalizing start with
  | nil => exact ⟨[], by simpa using hlead.symm, rfl⟩
  | cons component rest ih =>
      obtain ⟨⟨text, rfl⟩, hrest⟩ := List.forall_mem_cons.mp hnormal
      rw [List.foldlM_cons] at hlead
      obtain ⟨next, hnext, hlead⟩ := Option.bind_eq_some_iff.mp hlead
      obtain ⟨name, hname, rfl⟩ := Option.map_eq_some_iff.mp hnext
      obtain ⟨names, rfl, rfl⟩ := ih hrest hlead
      refine ⟨name :: names, by simp, ?_⟩
      rw [List.map_cons, Name.text_of_ofText? hname]

theorem Path.lead?_join {path below : Path}
    (hnormal : ∀ component ∈ below.components, component.IsNormal) (start : Location) :
    (path.join below).lead? start =
      (path.lead? start).bind (below.components.foldlM Component.lead?) := by
  rw [lead?, path.components_join hnormal, List.foldlM_append]
  rfl

/-- What a path passes on the way down is above the end of it. -/
theorem Path.Passes.isPrefix {path : Path} {start location spot : Location}
    (hpasses : path.Passes start location)
    (hnormal : ∀ component ∈ path.components, component.IsNormal)
    (hlead : path.lead? start = some spot) : location <+: spot := by
  obtain ⟨front, ⟨behind, hpath⟩, hfront⟩ := hpasses
  rw [lead?, ← hpath, List.foldlM_append, hfront] at hlead
  have hbehind : ∀ component ∈ behind, component.IsNormal := by
    intro component hcomponent
    refine hnormal component ?_
    rw [← hpath]
    exact List.mem_append_right _ hcomponent
  obtain ⟨names, rfl, -⟩ := exists_names_of_foldlM_lead? hbehind hlead
  exact List.prefix_append _ _

/-- Paths that lead down to one location have the same components. -/
theorem Path.components_eq_of_lead?_join {root path other : Path} {start location : Location}
    (hpath : ∀ component ∈ path.components, component.IsNormal)
    (hother : ∀ component ∈ other.components, component.IsNormal)
    (hleadPath : (root.join path).lead? start = some location)
    (hleadOther : (root.join other).lead? start = some location) :
    path.components = other.components := by
  rw [lead?_join hpath] at hleadPath
  rw [lead?_join hother] at hleadOther
  obtain ⟨base, hbase, hdown⟩ := Option.bind_eq_some_iff.mp hleadPath
  rw [hbase, Option.bind_some] at hleadOther
  obtain ⟨names, rfl, hnames⟩ := exists_names_of_foldlM_lead? hpath hdown
  obtain ⟨others, hsame, hothers⟩ := exists_names_of_foldlM_lead? hother hleadOther
  rw [hnames, hothers, List.append_cancel_left hsame]

theorem Path.isPrefix_of_lead?_join {root path : Path} {start base location : Location}
    (hpath : ∀ component ∈ path.components, component.IsNormal)
    (hbase : root.lead? start = some base)
    (hlead : (root.join path).lead? start = some location) : base <+: location := by
  rw [lead?_join hpath, hbase, Option.bind_some] at hlead
  obtain ⟨names, rfl, -⟩ := exists_names_of_foldlM_lead? hpath hlead
  exact List.prefix_append _ _

/-! ### Segments -/

def Segment.lead? (location : Location) (segment : Segment) : Option Location :=
  segment.component?.elim (some location) (Component.lead? location)

theorem foldlM_lead?_filterMap (segments : List Segment) (start : Location) :
    (segments.filterMap Segment.component?).foldlM Component.lead? start =
      segments.foldlM Segment.lead? start := by
  induction segments generalizing start with
  | nil => rfl
  | cons segment rest ih =>
      rw [List.filterMap_cons, List.foldlM_cons, Segment.lead?]
      cases segment.component? with
      | none => exact ih start
      | some component =>
          rw [List.foldlM_cons]
          exact bind_congr fun next => ih next

theorem foldlM_lead?_of_all_blank {segments : List Segment} (hblank : segments.all (· = .blank))
    (start : Location) : segments.foldlM Segment.lead? start = some start := by
  induction segments with
  | nil => rfl
  | cons segment rest ih =>
      simp only [List.all_cons, Bool.and_eq_true, decide_eq_true_eq] at hblank
      obtain ⟨rfl, hrest⟩ := hblank
      exact ih hrest

theorem FileSystem.lead?_eq_foldlM_segments (files : FileSystem) (path : Path) :
    path.lead? files.current = path.segments.foldlM Segment.lead? (files.start path) := by
  rw [Path.lead?, Path.components, start, ← foldlM_lead?_filterMap]
  by_cases habsolute : path.isAbsolute = true
  · rw [if_pos habsolute, if_pos habsolute]
    rfl
  · rw [if_neg habsolute, if_neg habsolute]
    split
    next segments hsegments =>
        rw [hsegments]
        rfl
    next => rfl

/-! ### Following without links -/

namespace Kinds

def IsLinkFree (kinds : Kinds) : Prop :=
  ∀ location target, kinds location ≠ some (.link target)

/-- Whether a move leads where its segment does, or ends where the segments from
there on do. -/
def Move.IsLexical (location : Location) (segment : Segment) (rest : List Segment) : Move → Prop
  | .go next => segment.lead? location = some next
  | .link _ => False
  | .stop (.ok place) => (segment :: rest).foldlM Segment.lead? location = some place.location
  | .stop (.error _) => True

variable {kinds : Kinds} {purpose : Purpose} {location : Location}

theorem IsLinkFree.move_isLexical (hlinks : kinds.IsLinkFree) (purpose : Purpose)
    (location : Location) (segment : Segment) (rest : List Segment) :
    (kinds.move purpose location segment rest).IsLexical location segment rest := by
  unfold move
  by_cases hkind : kinds location = some .directory
  · rw [if_pos hkind]
    cases segment with
    | blank => rfl
    | here => rfl
    | up => rfl
    | named text =>
        dsimp only
        cases hname : Name.ofText? text with
        | none => dsimp only; split_ifs <;> trivial
        | some name =>
            have hstep : Segment.lead? location (.named text) = some (location ++ [name]) := by
              simp [Segment.lead?, Segment.component?, Component.lead?, hname]
            have hends (hblank : rest.all (· = .blank)) :
                (Segment.named text :: rest).foldlM Segment.lead? location =
                  some (location ++ [name]) := by
              rw [List.foldlM_cons, hstep]
              exact foldlM_lead?_of_all_blank hblank _
            cases hentry : kinds (location ++ [name]) with
            | none =>
                simp only [hentry]
                split_ifs with _ _ hlast
                · trivial
                · trivial
                · exact hends hlast.1
                · trivial
            | some kind =>
                simp only [hentry]
                split_ifs with _ _ hlast
                · trivial
                · trivial
                · exact hends hlast.1
                · cases kind with
                  | link target => exact hlinks _ _ hentry
                  | file => exact hstep
                  | directory => exact hstep
  · rw [if_neg hkind]
    trivial

theorem IsLinkFree.foldlM_of_walk (hlinks : kinds.IsLinkFree)
    {onLink : Location → Path → List Segment → Except Fault Place} {segments : List Segment}
    {place : Place} (hwalk : kinds.walk purpose onLink location segments = .ok place) :
    segments.foldlM Segment.lead? location = some place.location := by
  induction segments generalizing location with
  | nil =>
      simp only [walk, Except.ok.injEq] at hwalk
      subst hwalk
      rfl
  | cons segment rest ih =>
      have hmove := hlinks.move_isLexical purpose location segment rest
      unfold walk at hwalk
      cases hmoved : kinds.move purpose location segment rest with
      | go next =>
          rw [hmoved] at hmove hwalk
          rw [List.foldlM_cons, show segment.lead? location = some next from hmove]
          exact ih hwalk
      | link target =>
          rw [hmoved] at hmove
          exact hmove.elim
      | stop outcome =>
          rw [hmoved] at hmove hwalk
          dsimp only at hwalk
          subst hwalk
          exact hmove

theorem IsLinkFree.foldlM_of_follow (hlinks : kinds.IsLinkFree) {links : Nat}
    {segments : List Segment} {place : Place}
    (hfollow : kinds.follow purpose links location segments = .ok place) :
    segments.foldlM Segment.lead? location = some place.location := by
  cases links with
  | zero => exact hlinks.foldlM_of_walk hfollow
  | succ links => exact hlinks.foldlM_of_walk hfollow

theorem IsLinkFree.update (hlinks : kinds.IsLinkFree) (location : Location) {kind : Kind}
    (hkind : ∀ target, kind ≠ .link target) :
    IsLinkFree (Function.update kinds location (some kind)) := by
  intro other target
  by_cases hother : other = location
  · subst hother
    rw [Function.update_self, ne_eq, Option.some.injEq]
    exact hkind target
  · rw [Function.update_of_ne hother]
    exact hlinks other target

end Kinds

def Node.isLink : Node → Bool
  | .link _ => true
  | _ => false

namespace FileSystem

variable {files before after : FileSystem} {purpose : Purpose} {path : Path} {place : Place}
  {location : Location}

/-- A walk through the whole tree tells whether there is a link. -/
theorem isLinkFree_iff :
    Kinds.IsLinkFree files.kind? ↔
      files.root.isLink = false ∧ ∀ found ∈ files.root.descendants, found.2.isLink = false := by
  have hkind (location : Location) :
      (∀ target, files.kind? location ≠ some (.link target)) ↔
        ∀ node, files.root.get? location = some node → node.isLink = false := by
    unfold kind?
    cases files.root.get? location with
    | none => simp
    | some node => cases node <;> simp [Node.kind, Node.isLink]
  constructor
  · intro hlinks
    refine ⟨(hkind []).mp (hlinks []) _ rfl, ?_⟩
    rintro ⟨location, node⟩ hfound
    have hget := (files.distinct.mem_descendants_iff.mp hfound).2
    exact (hkind location).mp (hlinks location) node hget
  · rintro ⟨hroot, hbelow⟩ location
    refine (hkind location).mpr ?_
    intro node hget
    by_cases hlocation : location = []
    · subst hlocation
      obtain rfl := Option.some.inj hget
      exact hroot
    · exact hbelow (location, node) (files.distinct.mem_descendants_iff.mpr ⟨hlocation, hget⟩)

instance (files : FileSystem) : Decidable (Kinds.IsLinkFree files.kind?) :=
  decidable_of_iff' _ isLinkFree_iff

/-- Without links a path leads where its components do, if anywhere. -/
theorem lead?_of_resolve (hlinks : Kinds.IsLinkFree files.kind?)
    (hresolve : files.resolve purpose path = .ok place) :
    path.lead? files.current = some place.location := by
  rw [lead?_eq_foldlM_segments]
  exact Kinds.IsLinkFree.foldlM_of_follow hlinks (resolve_eq_ok_iff.mp hresolve).2.1

theorem lead?_of_locate (hlinks : Kinds.IsLinkFree files.kind?)
    (hlocate : files.locate path = .ok location) : path.lead? files.current = some location :=
  lead?_of_resolve hlinks (locate_eq_ok_iff.mp hlocate)

end FileSystem

end Freestanding
