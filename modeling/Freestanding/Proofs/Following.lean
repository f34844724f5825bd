import Freestanding.Proofs.TreeView
import Mathlib.Data.List.Induction
import Mathlib.Tactic.SplitIfs

/-!
# Following paths by the kinds of nodes

Where a path leads depends on the kinds of the nodes only.  `Kinds.follow`
follows segments from one location to the next and looks at nothing else, and
`FileSystem.resolve_eq_follow` says that this is what the trails through a tree
amount to.

What is known of following is derived from what a single segment does.  A path
leads to something that is there, or to a free name in a directory.  It leads to
the same location again when more nodes are there, also to a free name at which
something has been made since.  And a path that leads to something ends at an
entry that is there, whether that is a link or not.
-/

namespace Freestanding

abbrev Kinds := Location → Option Kind

namespace Kinds

/-- What following a segment comes to. -/
inductive Move
  | go (next : Location)
  | link (target : Path)
  | stop (outcome : Except Fault Place)

def Move.into (entry : Location) : Kind → Move
  | .link target => .link target
  | _ => .go entry

/-- What a segment does at a location, when others follow it. -/
def move (kinds : Kinds) (purpose : Purpose) (location : Location) (segment : Segment)
    (rest : List Segment) : Move :=
  if kinds location = some .directory then
    match segment with
    | .blank => .go location
    | .here => .go location
    | .up => .go location.dropLast
    | .named text =>
      if purpose = .write ∧ rest.all (· = .blank) ∧ rest ≠ [] then .stop (.error .isDirectory)
      else if nameLimit < text.utf8ByteSize then .stop (.error .nameTooLong)
      else match Name.ofText? text with
        | none => .stop (.error .missing)
        | some name =>
          match kinds (location ++ [name]) with
          | none =>
            if rest.all (· = .blank) ∧ purpose ≠ .reach then
              .stop (.ok (.vacant (location ++ [name])))
            else .stop (.error .missing)
          | some kind =>
            if rest.all (· = .blank) ∧ purpose = .entry then
              .stop (.ok (.occupied (location ++ [name])))
            else .into (location ++ [name]) kind
  else .stop (.error .notDirectory)

/-- Follows segments; `onLink` goes on at a link. -/
def walk (kinds : Kinds) (purpose : Purpose)
    (onLink : Location → Path → List Segment → Except Fault Place) :
    Location → List Segment → Except Fault Place
  | location, [] => .ok (.occupied location)
  | location, segment :: rest =>
    match kinds.move purpose location segment rest with
    | .go next => kinds.walk purpose onLink next rest
    | .link target => onLink location target rest
    | .stop outcome => outcome

def follow (kinds : Kinds) (purpose : Purpose) :
    Nat → Location → List Segment → Except Fault Place
  | 0, location, segments =>
    kinds.walk purpose (fun _ _ _ => .error .tooManyLinks) location segments
  | links + 1, location, segments =>
    kinds.walk purpose (fun above target rest =>
      if target.text = "" then .error .missing
      else kinds.follow purpose links (if target.isAbsolute then [] else above)
        (target.segments ++ rest)) location segments

end Kinds

/-! ### Trails -/

namespace Trail

def kinds (trail : Trail) : Kinds :=
  fun location => (trail.root.get? location).map Node.kind

theorem kinds_eq_of_root_eq {trail other : Trail} (hroot : other.root = trail.root) :
    other.kinds = trail.kinds := by
  unfold kinds
  rw [hroot]

theorem location_up (trail : Trail) : trail.up.location = trail.location.dropLast := by
  simp [location, up, List.map_tail, List.dropLast_reverse]

theorem location_of_enter? {trail inner : Trail} {name : Name}
    (henter : trail.enter? name = some inner) :
    inner.location = trail.location ++ [name] ∧ inner.root = trail.root := by
  obtain ⟨node, -, rfl⟩ := Option.map_eq_some_iff.mp henter
  simp [location]

theorem IsSound.kinds_location {trail : Trail} (hsound : trail.IsSound) :
    trail.kinds trail.location = some trail.node.kind := by
  simp [kinds, hsound.get?_location]

theorem IsSound.kinds_entry {trail : Trail} (hsound : trail.IsSound) (name : Name) :
    trail.kinds (trail.location ++ [name]) = (trail.enter? name).map (·.node.kind) := by
  simp only [kinds, Node.get?_append_singleton, hsound.get?_location, Option.bind_some]
  rw [Trail.enter?]
  cases trail.node.child? name <;> rfl

/-- Trails are followed as the kinds of their nodes say, provided that links
are. -/
theorem IsSound.advance_eq_walk {purpose : Purpose}
    {follow : Trail → Path → List Segment → Except Fault Place}
    {onLink : Location → Path → List Segment → Except Fault Place}
    {trail : Trail} (hsound : trail.IsSound) (segments : List Segment)
    (hfollow : ∀ above : Trail, above.IsSound → above.root = trail.root →
      ∀ target rest, follow above target rest = onLink above.location target rest) :
    trail.advance purpose follow segments =
      trail.kinds.walk purpose onLink trail.location segments := by
  induction segments generalizing trail with
  | nil => rfl
  | cons segment rest ih =>
      have hkind := hsound.kinds_location
      by_cases hdirectory : trail.node.isDirectory = true
      · have hhere := Node.isDirectory_iff_kind.mp hdirectory
        rw [hhere] at hkind
        cases segment with
        | blank =>
            simp only [advance, Kinds.walk, Kinds.move, hdirectory, hkind, if_true]
            exact ih hsound hfollow
        | here =>
            simp only [advance, Kinds.walk, Kinds.move, hdirectory, hkind, if_true]
            exact ih hsound hfollow
        | up =>
            simp only [advance, Kinds.walk, Kinds.move, hdirectory, hkind, if_true]
            rw [← location_up]
            exact ih hsound.up hfollow
        | named text =>
            simp only [advance, Kinds.walk, Kinds.move, hdirectory, hkind, if_true]
            cases Name.ofText? text with
            | none => simp only; split_ifs <;> rfl
            | some name =>
                simp only [hsound.kinds_entry]
                cases henter : trail.enter? name with
                | none => simp only [Option.map_none]; split_ifs <;> rfl
                | some inner =>
                    obtain ⟨hlocation, hroot⟩ := location_of_enter? henter
                    have hgo := ih (hsound.enter? henter) (by rw [hroot]; exact hfollow)
                    rw [hlocation, kinds_eq_of_root_eq hroot] at hgo
                    simp only [Option.map_some, hlocation]
                    split_ifs
                    · rfl
                    · rfl
                    · rfl
                    · cases hnode : inner.node with
                      | file => exact hgo
                      | directory => exact hgo
                      | link target => exact hfollow trail hsound rfl target rest
      · have hnot : ¬ trail.node.kind = .directory :=
          fun hhere => hdirectory (Node.isDirectory_iff_kind.mpr hhere)
        simp [advance, Kinds.walk, Kinds.move, hdirectory, hkind, hnot]

theorem IsSound.follow_eq {purpose : Purpose} {links : Nat} {trail : Trail}
    (hsound : trail.IsSound) (segments : List Segment) :
    trail.follow purpose links segments =
      trail.kinds.follow purpose links trail.location segments := by
  induction links generalizing trail segments with
  | zero => exact hsound.advance_eq_walk segments fun _ _ _ _ _ => rfl
  | succ links ih =>
      refine hsound.advance_eq_walk segments ?_
      intro above habove hroot target rest
      split_ifs with hempty habsolute
      · rfl
      · have hkinds : (start above.root).kinds = trail.kinds := kinds_eq_of_root_eq hroot
        rw [ih (isSound_start above.root), hkinds]
        rfl
      · rw [ih habove, kinds_eq_of_root_eq hroot]

theorem to?_eq (root : Node) (location : Location) :
    (∃ trail, to? root location = some trail ∧ trail.IsSound ∧ trail.root = root ∧
        trail.location = location) ∨
      (to? root location = none ∧ root.get? location = none) := by
  induction location using List.reverseRecOn with
  | nil => exact .inl ⟨start root, rfl, isSound_start root, rfl, rfl⟩
  | append_singleton above name ih =>
      rcases ih with ⟨trail, hto, hsound, hroot, hlocation⟩ | ⟨hto, hget⟩
      · have hstep : to? root (above ++ [name]) = trail.enter? name := by
          unfold to? at hto ⊢
          rw [List.foldlM_append, hto]
          simp
        cases henter : trail.enter? name with
        | none =>
            refine .inr ⟨hstep.trans henter, ?_⟩
            have hkinds := hsound.kinds_entry name
            rw [henter, hlocation] at hkinds
            simpa [kinds, hroot] using hkinds
        | some inner =>
            obtain ⟨hinner, hsame⟩ := location_of_enter? henter
            exact .inl ⟨inner, hstep.trans henter, hsound.enter? henter,
              hsame.trans hroot, by rw [hinner, hlocation]⟩
      · refine .inr ⟨?_, ?_⟩
        · unfold to? at hto ⊢
          rw [List.foldlM_append, hto]
          rfl
        · rw [Node.get?_append_singleton, hget]
          rfl

end Trail

/-! ### Where a path can lead -/

def Place.location : Place → Location
  | .occupied location => location
  | .vacant location => location

/-- The purposes for which a path leads on where it did: to reach what is there,
and to write again. -/
def Purpose.Allows (purpose again : Purpose) : Prop :=
  again = .reach ∨ again = .write ∧ purpose = .write

namespace Kinds

/-- Whether what has a location below another one is an entry of a directory. -/
def IsTree (kinds : Kinds) : Prop :=
  ∀ location name, kinds (location ++ [name]) ≠ none → kinds location = some .directory

/-- Whether a place is one that a path can lead to: something that is there, a
link only for the purpose of the entry itself, or a free name in a directory. -/
def Fits (kinds : Kinds) (purpose : Purpose) : Place → Prop
  | .occupied location =>
    kinds location ≠ none ∧ (purpose ≠ .entry → ∀ target, kinds location ≠ some (.link target))
  | .vacant location =>
    kinds location = none ∧
      ∃ above name, location = above ++ [name] ∧ kinds above = some .directory

variable {kinds more : Kinds} {purpose : Purpose}

theorem Fits.of_reach {location : Location}
    (hfits : kinds.Fits .reach (.occupied location)) :
    kinds.Fits purpose (.occupied location) :=
  ⟨hfits.1, fun _ => hfits.2 (by simp)⟩

theorem fits_of_directory {location : Location} (hkind : kinds location = some .directory) :
    kinds.Fits purpose (.occupied location) := by
  constructor
  · simp [hkind]
  · intro _ target
    simp [hkind]

theorem IsTree.dropLast (htree : kinds.IsTree) {location : Location}
    (hkind : kinds location = some .directory) :
    kinds location.dropLast = some .directory := by
  rcases List.eq_nil_or_concat location with rfl | ⟨above, name, rfl⟩
  · exact hkind
  · rw [List.concat_eq_append] at hkind ⊢
    rw [List.dropLast_concat]
    exact htree above name (by simp [hkind])

theorem IsTree.root (htree : kinds.IsTree) {location : Location}
    (hkind : kinds location = some .directory) : kinds [] = some .directory := by
  induction location using List.reverseRecOn with
  | nil => exact hkind
  | append_singleton above name ih => exact ih (htree above name (by simp [hkind]))

/-- Whether a segment leads on to something that is there and no link, or ends at
a place that fits. -/
def Move.Fits (kinds : Kinds) (purpose : Purpose) : Move → Prop
  | .go next => kinds.Fits .reach (.occupied next)
  | .link _ => True
  | .stop (.ok place) => kinds.Fits purpose place
  | .stop (.error _) => True

theorem IsTree.move_fits (htree : kinds.IsTree) (purpose : Purpose) (location : Location)
    (segment : Segment) (rest : List Segment) :
    (kinds.move purpose location segment rest).Fits kinds purpose := by
  unfold move
  by_cases hkind : kinds location = some .directory
  · rw [if_pos hkind]
    cases segment with
    | blank => exact fits_of_directory hkind
    | here => exact fits_of_directory hkind
    | up => exact fits_of_directory (htree.dropLast hkind)
    | named text =>
        dsimp only
        cases Name.ofText? text with
        | none => dsimp only; split_ifs <;> trivial
        | some name =>
            cases hentry : kinds (location ++ [name]) with
            | none =>
                simp only [hentry]
                split_ifs
                · trivial
                · trivial
                · exact ⟨hentry, location, name, rfl, hkind⟩
                · trivial
            | some kind =>
                simp only [hentry]
                split_ifs with _ _ hlast
                · trivial
                · trivial
                · exact ⟨by simp [hentry], fun hpurpose => absurd hlast.2 hpurpose⟩
                · cases kind with
                  | link target => trivial
                  | file => exact ⟨by simp [hentry], by simp [hentry]⟩
                  | directory => exact fits_of_directory hentry
  · rw [if_neg hkind]
    trivial

theorem IsTree.fits_of_walk (htree : kinds.IsTree)
    {onLink : Location → Path → List Segment → Except Fault Place}
    (hlink : ∀ above target rest place,
      onLink above target rest = .ok place → kinds.Fits purpose place)
    {location : Location} {segments : List Segment} {place : Place}
    (hstart : segments ≠ [] ∨ kinds.Fits .reach (.occupied location))
    (hwalk : kinds.walk purpose onLink location segments = .ok place) :
    kinds.Fits purpose place := by
  induction segments generalizing location with
  | nil =>
      simp only [walk, Except.ok.injEq] at hwalk
      subst hwalk
      exact (hstart.resolve_left (by simp)).of_reach
  | cons segment rest ih =>
      have hmove := htree.move_fits purpose location segment rest
      unfold walk at hwalk
      cases hmoved : kinds.move purpose location segment rest with
      | go next =>
          rw [hmoved] at hmove hwalk
          exact ih (.inr hmove) hwalk
      | link target =>
          rw [hmoved] at hwalk
          exact hlink _ _ _ _ hwalk
      | stop outcome =>
          rw [hmoved] at hmove hwalk
          dsimp only at hwalk
          subst hwalk
          exact hmove

theorem IsTree.fits_of_follow (htree : kinds.IsTree) {links : Nat} {location : Location}
    {segments : List Segment} {place : Place} (hsegments : segments ≠ [])
    (hfollow : kinds.follow purpose links location segments = .ok place) :
    kinds.Fits purpose place := by
  induction links generalizing location segments place with
  | zero => exact htree.fits_of_walk (by simp) (.inl hsegments) hfollow
  | succ links ih =>
      refine htree.fits_of_walk ?_ (.inl hsegments) hfollow
      intro above target rest place hplace
      have hmore : target.segments ++ rest ≠ [] := by
        simp [Path.segments, Path.pieces, pieces_ne_nil]
      split_ifs at hplace
      · exact ih hmore hplace
      · exact ih hmore hplace

theorem directory_of_follow {links : Nat} {location : Location} {segments : List Segment}
    {place : Place} (hsegments : segments ≠ [])
    (hfollow : kinds.follow purpose links location segments = .ok place) :
    kinds location = some .directory := by
  obtain ⟨segment, rest, rfl⟩ := List.exists_cons_of_ne_nil hsegments
  by_contra hkind
  have hmove : kinds.move purpose location segment rest = .stop (.error .notDirectory) :=
    if_neg hkind
  cases links with
  | zero => simp [follow, walk, hmove] at hfollow
  | succ links => simp [follow, walk, hmove] at hfollow

/-! ### More nodes -/

def Extends (kinds more : Kinds) : Prop :=
  ∀ location kind, kinds location = some kind → more location = some kind

/-- Whether a path that led to a place for a purpose can lead there again: the
free name has become a directory, or a file if the path was followed to write. -/
def Completes (more : Kinds) (purpose : Purpose) : Place → Prop
  | .occupied _ => purpose ≠ .entry
  | .vacant made => more made = some .directory ∨ purpose = .write ∧ more made = some .file

theorem move_named {again : Purpose} {location : Location} {text : String} {name : Name}
    {kind : Kind} {rest : List Segment} (hkind : kinds location = some .directory)
    (hslash : ¬ (again = .write ∧ rest.all (· = .blank) ∧ rest ≠ []))
    (hlong : ¬ nameLimit < text.utf8ByteSize) (hname : Name.ofText? text = some name)
    (hentry : kinds (location ++ [name]) = some kind) (hagain : again ≠ .entry) :
    kinds.move again location (.named text) rest = .into (location ++ [name]) kind := by
  simp only [move, if_pos hkind, if_neg hslash, if_neg hlong, hname, hentry, hagain, and_false,
    if_false]

/-- Whether a segment that is followed again leads on in the same way when there
are more nodes, and also to where something was missing once it has been made. -/
def Move.PersistsIn (more : Kinds) (purpose again : Purpose) (location : Location)
    (segment : Segment) (rest : List Segment) : Move → Prop
  | .go next => more.move again location segment rest = .go next
  | .link target => more.move again location segment rest = .link target
  | .stop (.ok (.occupied _)) => purpose = .entry
  | .stop (.ok (.vacant made)) => rest.all (· = .blank) ∧ (purpose = .write → rest = []) ∧
      ∀ kind, more made = some kind → more.move again location segment rest = .into made kind
  | .stop (.error _) => True

variable {again : Purpose}

theorem Extends.move_persists (hextends : kinds.Extends more) (hagain : purpose.Allows again)
    (location : Location) (segment : Segment) (rest : List Segment) :
    (kinds.move purpose location segment rest).PersistsIn more purpose again location segment
      rest := by
  by_cases hkind : kinds location = some .directory
  · have hmore := hextends location _ hkind
    cases segment with
    | blank => simp [move, hkind, Move.PersistsIn, hmore]
    | here => simp [move, hkind, Move.PersistsIn, hmore]
    | up => simp [move, hkind, Move.PersistsIn, hmore]
    | named text =>
        have hentryFree : again ≠ .entry := by
          rcases hagain with rfl | ⟨rfl, -⟩ <;> simp
        have hwrite (hagainWrite : again = .write) : purpose = .write := by
          rcases hagain with rfl | ⟨-, hpurpose⟩
          · simp at hagainWrite
          · exact hpurpose
        unfold move
        rw [if_pos hkind]
        dsimp only
        cases hname : Name.ofText? text with
        | none => dsimp only; split_ifs <;> trivial
        | some name =>
            cases hentry : kinds (location ++ [name]) with
            | none =>
                simp only [hentry]
                split_ifs with hslash hlong hlast
                · trivial
                · trivial
                · refine ⟨hlast.1, ?_, ?_⟩
                  · exact fun hpurpose => by_contra fun hrest => hslash ⟨hpurpose, hlast.1, hrest⟩
                  · exact fun kind hmade => move_named hmore
                      (fun hagainSlash => hslash ⟨hwrite hagainSlash.1, hagainSlash.2⟩) hlong hname
                      hmade hentryFree
                · trivial
            | some kind =>
                simp only [hentry]
                split_ifs with hslash hlong hlast
                · trivial
                · trivial
                · exact hlast.2
                · have hgo := move_named hmore
                    (fun hagainSlash => hslash ⟨hwrite hagainSlash.1, hagainSlash.2⟩) hlong hname
                    (hextends _ _ hentry) hentryFree
                  cases kind <;> exact hgo
  · unfold move
    rw [if_neg hkind]
    trivial

theorem walk_of_all_blank {onLink : Location → Path → List Segment → Except Fault Place}
    {location : Location} {segments : List Segment} (hkind : kinds location = some .directory)
    (hblank : segments.all (· = .blank)) :
    kinds.walk purpose onLink location segments = .ok (.occupied location) := by
  induction segments with
  | nil => rfl
  | cons segment rest ih =>
      simp only [List.all_cons, Bool.and_eq_true, decide_eq_true_eq] at hblank
      obtain ⟨rfl, hrest⟩ := hblank
      have hmove : kinds.move purpose location .blank rest = .go location := if_pos hkind
      rw [walk, hmove]
      exact ih hrest

/-- Where a walk leads, the same walk leads again with more nodes there. -/
theorem Extends.walk_again (hextends : kinds.Extends more) (hagain : purpose.Allows again)
    {place : Place} (hplace : more.Completes purpose place)
    {onLink onLinkMore : Location → Path → List Segment → Except Fault Place}
    (hlink : ∀ above target rest, onLink above target rest = .ok place →
      onLinkMore above target rest = .ok (.occupied place.location))
    {location : Location} {segments : List Segment}
    (hwalk : kinds.walk purpose onLink location segments = .ok place) :
    more.walk again onLinkMore location segments = .ok (.occupied place.location) := by
  induction segments generalizing location with
  | nil =>
      simp only [walk, Except.ok.injEq] at hwalk
      subst hwalk
      rfl
  | cons segment rest ih =>
      have hmove := hextends.move_persists hagain location segment rest
      unfold walk at hwalk ⊢
      cases hmoved : kinds.move purpose location segment rest with
      | go next =>
          rw [hmoved] at hmove hwalk
          rw [show more.move again location segment rest = .go next from hmove]
          exact ih hwalk
      | link target =>
          rw [hmoved] at hmove hwalk
          rw [show more.move again location segment rest = .link target from hmove]
          exact hlink _ _ _ hwalk
      | stop outcome =>
          rw [hmoved] at hmove hwalk
          dsimp only at hwalk
          subst hwalk
          cases place with
          | occupied => exact absurd hmove hplace
          | vacant made =>
              obtain ⟨hblank, hrest, hgo⟩ := hmove
              rcases hplace with hdirectory | ⟨hwrite, hfile⟩
              · rw [hgo _ hdirectory]
                exact walk_of_all_blank hdirectory hblank
              · rw [hgo _ hfile, hrest hwrite]
                rfl

theorem Extends.follow_again (hextends : kinds.Extends more) (hagain : purpose.Allows again)
    {place : Place} (hplace : more.Completes purpose place) {links : Nat} {location : Location}
    {segments : List Segment}
    (hfollow : kinds.follow purpose links location segments = .ok place) :
    more.follow again links location segments = .ok (.occupied place.location) := by
  induction links generalizing location segments with
  | zero => exact hextends.walk_again hagain hplace (by simp) hfollow
  | succ links ih =>
      refine hextends.walk_again hagain hplace ?_ hfollow
      intro above target rest hrest
      split_ifs at hrest ⊢
      all_goals exact ih hrest

/-! ### The entry of what is there -/

/-- Whether a segment that leads on to what is there leads on in the same way, or
ends at what is there, when it is followed to the entry itself. -/
def Move.EntersAs (entered : Move) : Move → Prop
  | .stop outcome => ∃ fault, outcome = .error fault
  | reached => entered = reached ∨ ∃ location, entered = .stop (.ok (.occupied location))

theorem move_entersAs (kinds : Kinds) (location : Location) (segment : Segment)
    (rest : List Segment) :
    (kinds.move .entry location segment rest).EntersAs
      (kinds.move .reach location segment rest) := by
  by_cases hkind : kinds location = some .directory
  · cases segment with
    | blank => simp [move, hkind, Move.EntersAs]
    | here => simp [move, hkind, Move.EntersAs]
    | up => simp [move, hkind, Move.EntersAs]
    | named text =>
        by_cases hlong : nameLimit < text.utf8ByteSize
        · simp [move, hkind, hlong, Move.EntersAs]
        · cases hname : Name.ofText? text with
          | none => simp [move, hkind, hlong, hname, Move.EntersAs]
          | some name =>
              cases hentry : kinds (location ++ [name]) with
              | none => simp [move, hkind, hlong, hname, hentry, Move.EntersAs]
              | some kind =>
                  by_cases hblank : rest.all (· = .blank) = true
                  · cases kind <;>
                      simp [move, hkind, hlong, hname, hentry, hblank, Move.into, Move.EntersAs]
                  · cases kind <;>
                      simp [move, hkind, hlong, hname, hentry, hblank, Move.into, Move.EntersAs]
  · simp [move, hkind, Move.EntersAs]

theorem walk_entry_of_reach
    {onLink onLinkEntry : Location → Path → List Segment → Except Fault Place}
    (hlink : ∀ above target rest, (∃ place, onLink above target rest = .ok place) →
      ∃ entry, onLinkEntry above target rest = .ok (.occupied entry))
    {location : Location} {segments : List Segment} {place : Place}
    (hwalk : kinds.walk .reach onLink location segments = .ok place) :
    ∃ entry, kinds.walk .entry onLinkEntry location segments = .ok (.occupied entry) := by
  induction segments generalizing location with
  | nil => exact ⟨location, rfl⟩
  | cons segment rest ih =>
      have hmove := kinds.move_entersAs location segment rest
      unfold walk at hwalk ⊢
      cases hreached : kinds.move .reach location segment rest with
      | go next =>
          rw [hreached] at hmove hwalk
          rcases hmove with hentered | ⟨entry, hentered⟩
          · rw [hentered]
            exact ih hwalk
          · exact ⟨entry, by rw [hentered]⟩
      | link target =>
          rw [hreached] at hmove hwalk
          rcases hmove with hentered | ⟨entry, hentered⟩
          · rw [hentered]
            exact hlink _ _ _ ⟨place, hwalk⟩
          · exact ⟨entry, by rw [hentered]⟩
      | stop outcome =>
          rw [hreached] at hmove hwalk
          obtain ⟨fault, rfl⟩ := hmove
          simp at hwalk

theorem follow_entry_of_reach {links : Nat} {location : Location} {segments : List Segment}
    {place : Place} (hfollow : kinds.follow .reach links location segments = .ok place) :
    ∃ entry, kinds.follow .entry links location segments = .ok (.occupied entry) := by
  induction links generalizing location segments place with
  | zero => exact walk_entry_of_reach (by simp) hfollow
  | succ links ih =>
      refine walk_entry_of_reach ?_ hfollow
      rintro above target rest ⟨reached, hreached⟩
      split_ifs at hreached ⊢
      all_goals exact ih hreached

end Kinds

namespace FileSystem

def start (files : FileSystem) (path : Path) : Location :=
  if path.isAbsolute then [] else files.current

/-- Where a path leads is told by the kinds of the nodes. -/
theorem resolve_eq_follow (files : FileSystem) (purpose : Purpose) (path : Path) :
    files.resolve purpose path = (do
      path.check
      if files.kind? (files.start path) = none then .error .missing
      else Kinds.follow files.kind? purpose linkLimit (files.start path) path.segments) := by
  unfold resolve
  congr 1
  funext _
  rcases Trail.to?_eq files.root (files.start path) with
    ⟨trail, hto, hsound, hroot, hlocation⟩ | ⟨hto, hget⟩
  · have hkinds : trail.kinds = files.kind? := by
      unfold Trail.kinds
      rw [hroot]
      rfl
    have hthere := hsound.kinds_location
    rw [hkinds, hlocation] at hthere
    unfold start at hto
    simp only [hto, hthere, reduceCtorEq, if_false]
    rw [hsound.follow_eq, hkinds, hlocation]
  · have hnone : files.kind? (files.start path) = none := by
      simp [kind?, hget]
    unfold start at hto
    simp only [hto, hnone, if_true]

end FileSystem

end Freestanding
