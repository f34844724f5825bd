import Freestanding.Extraction
import Freestanding.Proofs.InstallationRun
import Freestanding.Proofs.ReachedNames
import Freestanding.Proofs.RenderedNames
import Freestanding.Proofs.RootedPaths
import Freestanding.Proofs.RoundCount

/-!
# Events worded on one line

The wording of an event quotes the operands, names that files include, names that
the tables hold, and paths of the source tree.  An included name stands in one
line of a file.  So if the operands hold no line feed and neither does a name in
the source tree, every event of an extraction is worded on one line.
-/

namespace Freestanding

def IsOneLine (text : String) : Prop :=
  '\n' ∉ text.toList

instance (text : String) : Decidable (IsOneLine text) :=
  inferInstanceAs (Decidable (_ ∉ _))

@[simp] theorem isOneLine_append {left right : String} :
    IsOneLine (left ++ right) ↔ IsOneLine left ∧ IsOneLine right := by
  simp [IsOneLine]

@[simp] theorem isOneLine_repr (count : Nat) : IsOneLine count.repr := by
  intro hfeed
  rw [Nat.toList_repr] at hfeed
  exact absurd (Nat.isDigit_of_mem_toDigits (by decide) (by decide) hfeed) (by decide)

/-- The texts that the wording of an event quotes. -/
def Event.quoted : Event → List String
  | .resolving root | .installing root => [root.text]
  | .substituted name other | .depends name other => [name, other]
  | .found searchName directory => [searchName, directory.text]
  | .patched source destination | .copied source destination => [source.text, destination.text]
  | .installed _ => []

theorem Event.isOneLine_message {event : Event} (hquoted : ∀ text ∈ event.quoted, IsOneLine text) :
    IsOneLine event.message := by
  cases event
  all_goals simp only [quoted, List.forall_mem_cons] at hquoted
  all_goals simp only [message.eq_def, isOneLine_append, Nat.toString_eq_repr, isOneLine_repr, hquoted]
  all_goals decide

/-! ### Paths -/

namespace Path

variable {path below parent : Path}

theorem isOneLine_join (hpath : IsOneLine path.text) (hbelow : IsOneLine below.text) :
    IsOneLine (path.join below).text := by
  have hslash : IsOneLine "/" := by decide
  unfold join
  split_ifs
  · exact hbelow
  · exact isOneLine_append.mpr ⟨hpath, hbelow⟩
  · exact isOneLine_append.mpr ⟨isOneLine_append.mpr ⟨hpath, hslash⟩, hbelow⟩

theorem isOneLine_ofPieces {parts : List (List Char)} (hparts : ∀ part ∈ parts, '\n' ∉ part) :
    IsOneLine (ofPieces parts).text := by
  intro hfeed
  rw [ofPieces, String.toList_ofList] at hfeed
  obtain hslash | ⟨part, hpart, hmem⟩ := eq_or_exists_mem_of_mem_intercalate hfeed
  · exact absurd hslash (by decide)
  · exact hparts part hpart hmem

theorem isOneLine_ofKept {beginning kept : List (List Char)}
    (hbeginning : ∀ part ∈ beginning, '\n' ∉ part) (hkept : ∀ part ∈ kept, '\n' ∉ part) :
    IsOneLine (ofKept beginning kept).text := by
  have hroot : IsOneLine "/" := by decide
  unfold ofKept
  split_ifs
  · exact hroot
  · exact isOneLine_ofPieces fun part hpart =>
      (List.mem_append.mp hpart).elim (hbeginning part) (hkept part)

theorem isOneLine_parentsBehind {beginning parts : List (List Char)}
    (hbeginning : ∀ part ∈ beginning, '\n' ∉ part) (hparts : ∀ part ∈ parts, '\n' ∉ part) :
    ∀ parent ∈ parentsBehind beginning parts, IsOneLine parent.text := by
  have hempty : IsOneLine "" := by decide
  induction parts with
  | nil =>
      intro parent hparent
      unfold parentsBehind at hparent
      split_ifs at hparent
      · rw [List.mem_singleton.mp hparent]
        exact hempty
      · simp at hparent
  | cons piece above ih =>
      have habove : ∀ part ∈ above, '\n' ∉ part :=
        fun part hpart => hparts part (List.mem_cons_of_mem _ hpart)
      have hkept : ∀ part ∈ (above.dropWhile isFiller).reverse, '\n' ∉ part :=
        fun part hpart =>
          habove part ((List.dropWhile_suffix isFiller).mem (List.mem_reverse.mp hpart))
      intro parent hparent
      unfold parentsBehind at hparent
      split_ifs at hparent
      · exact ih habove parent hparent
      · rcases List.mem_cons.mp hparent with rfl | hparent
        · exact isOneLine_ofKept hbeginning hkept
        · exact ih habove parent hparent

theorem isOneLine_parent? (hpath : IsOneLine path.text) (hparent : path.parent? = some parent) :
    IsOneLine parent.text := by
  have hpieces : ∀ piece ∈ path.pieces, '\n' ∉ piece := by
    intro piece hpiece hfeed
    have hjoined : '\n' ∈ ['/'].intercalate path.pieces := mem_intercalate_of_mem hpiece hfeed
    rw [pieces, intercalate_pieces] at hjoined
    exact hpath hjoined
  have hmem : parent ∈ path.parents := List.mem_of_head? hparent
  unfold parents at hmem
  split at hmem
  next piece rest hcut =>
      rw [hcut] at hpieces
      refine isOneLine_parentsBehind (by simp) ?_ parent hmem
      exact fun part hpart => hpieces part (List.mem_cons_of_mem _ (List.mem_reverse.mp hpart))
  next rest hcut =>
      rw [hcut] at hpieces
      refine isOneLine_parentsBehind (by simp) ?_ parent hmem
      exact fun part hpart => hpieces part (List.mem_cons_of_mem _ (List.mem_reverse.mp hpart))
  next =>
      refine isOneLine_parentsBehind (by simp) ?_ parent hmem
      exact fun part hpart => hpieces part (List.mem_reverse.mp hpart)

end Path

/-! ### Names and paths of a source tree -/

/-- An included name stands in one line of a file. -/
theorem isOneLine_of_mem_dependencies {contents : List UInt8} {name : String}
    (hname : name ∈ dependencies contents) : IsOneLine name :=
  (isHeaderName_of_mem_includes hname).feed

namespace SourceTree

variable {tree : SourceTree} {tables : Tables} {headers pending names : List String}
  {set : HeaderSet} {resolution : Resolution} {location : Location} {name : String}
  {found : Located} {event : Event}

/-- Whether neither the root nor the name of an entry below it holds a line
feed. -/
structure HasOneLinePaths (tree : SourceTree) : Prop where
  root : IsOneLine tree.root.text
  names : ∀ location, tree.IsEntry location → ∀ name ∈ location, IsOneLine name.text

theorem HasOneLinePaths.path (hpaths : tree.HasOneLinePaths) (hentry : tree.IsEntry location) :
    IsOneLine (tree.path location).text := by
  apply Path.isOneLine_join hpaths.root
  intro hfeed
  obtain hslash | ⟨name, hname, hmem⟩ := Location.eq_or_exists_mem_of_mem_path hfeed
  · exact absurd hslash (by decide)
  · exact hpaths.names location hentry name hname hmem

theorem HasOneLinePaths.search (hpaths : tree.HasOneLinePaths)
    (hsearch : tree.search tables name = .ok found) : IsOneLine found.location.text := by
  obtain ⟨location, hlocation, hmatch, -⟩ := find?_eq_some_iff.mp (search_eq_ok hsearch).1
  rw [hlocation]
  exact hpaths.path hmatch.1.entry

theorem isOneLine_of_mem_includes (hsearch : tree.search tables name = .ok found) {included : String}
    (hincluded : included ∈ found.includes) : IsOneLine included := by
  obtain ⟨contents, -, hincludes⟩ := FileSystem.dependencies_eq_ok (search_eq_ok hsearch).2
  rw [← hincludes] at hincluded
  exact isOneLine_of_mem_dependencies hincluded

theorem Reaches.isOneLine (hheaders : ∀ header ∈ headers, IsOneLine header)
    (hreaches : tree.Reaches tables headers name) : IsOneLine name := by
  cases hreaches with
  | header hname => exact hheaders name hname
  | required _ hrequires =>
      obtain ⟨found, hsearch, hincluded, -⟩ := hrequires
      exact isOneLine_of_mem_includes hsearch hincluded

/-- What a resolution of one-line names hands to an installation. -/
theorem isOneLine_of_mem_entries (hpaths : tree.HasOneLinePaths)
    (hheaders : ∀ header ∈ headers, IsOneLine header)
    (hresolve : (tree.resolve tables headers).outcome = .ok set) {entry : String × Path}
    (hentry : entry ∈ set.entries) : IsOneLine entry.1 ∧ IsOneLine entry.2.text := by
  have hlocates := resolve_eq_ok_iff.mp hresolve
  have hget := HeaderSet.mem_entries_iff.mp hentry
  have hreaches := hlocates.reached entry.1 (HeaderSet.mem_names_iff.mpr ⟨entry.2, hget⟩)
  obtain ⟨found, hsearch, hfound⟩ := hlocates.located entry.1 hreaches
  rw [hget, Option.some.injEq] at hfound
  rw [hfound]
  exact ⟨hreaches.isOneLine hheaders, hpaths.search hsearch⟩

/-! ### Events of a resolution -/

variable (haliases : ∀ entry ∈ tables.aliases, IsOneLine entry.2)

include haliases

theorem isOneLine_of_substitute? {header : String}
    (hsubstitute : tables.substitute? header = some name) : IsOneLine name :=
  haliases _ (mem_of_lookup hsubstitute)

theorem isOneLine_searchName (hname : IsOneLine name) : IsOneLine (tables.searchName name) := by
  unfold Tables.searchName
  cases hsubstitute : tables.substitute? name with
  | none => exact hname
  | some substitute => exact isOneLine_of_substitute? haliases hsubstitute

theorem isOneLine_of_mem_substitution (hname : IsOneLine name)
    (hevent : event ∈ substitution tables name) : IsOneLine event.message := by
  unfold substitution at hevent
  cases hsubstitute : tables.substitute? name with
  | none => simp [hsubstitute] at hevent
  | some substitute =>
      have hsubstituteLine := isOneLine_of_substitute? haliases hsubstitute
      simp only [hsubstitute, List.mem_singleton] at hevent
      rw [hevent]
      exact Event.isOneLine_message (by simp [Event.quoted, hname, hsubstituteLine])

theorem isOneLine_of_mem_discovery (hpaths : tree.HasOneLinePaths) (hname : IsOneLine name)
    (hsearch : tree.search tables name = .ok found)
    (hevent : event ∈ tree.discovery tables name found) : IsOneLine event.message := by
  have hlocation := hpaths.search hsearch
  rcases List.mem_cons.mp hevent with rfl | hevent
  · have hsearchName := isOneLine_searchName haliases hname
    have hdirectory : IsOneLine (found.location.parent?.getD tree.root).text := by
      cases hparent : found.location.parent? with
      | none => exact hpaths.root
      | some parent => exact Path.isOneLine_parent? hlocation hparent
    exact Event.isOneLine_message (by simp [Event.quoted, hsearchName, hdirectory])
  · obtain ⟨included, hincluded, rfl⟩ := List.mem_map.mp hevent
    have hincludedLine := isOneLine_of_mem_includes hsearch hincluded
    exact Event.isOneLine_message (by simp [Event.quoted, hname, hincludedLine])

theorem isOneLine_of_mem_events_round (hpaths : tree.HasOneLinePaths)
    (hnames : ∀ name ∈ names, IsOneLine name)
    (hevent : event ∈ (tree.round tables names).events tree tables) : IsOneLine event.message := by
  have hsearched : ∀ name ∈ (tree.round tables names).searched, IsOneLine name :=
    fun name hname => hnames name ((tree.searched_isPrefix tables names).mem hname)
  simp only [Round.searched, List.forall_mem_append, List.forall_mem_map] at hsearched
  obtain ⟨hfound, hfailed⟩ := hsearched
  simp only [Round.events, List.mem_append, List.mem_flatMap] at hevent
  rcases hevent with ⟨entry, hentry, hevent | hevent⟩ | ⟨entry, hentry, hevent⟩
  · exact isOneLine_of_mem_substitution haliases (hfound entry hentry) hevent
  · exact isOneLine_of_mem_discovery haliases hpaths (hfound entry hentry)
      (search_of_mem_found hentry) hevent
  · exact isOneLine_of_mem_substitution haliases (hfailed entry hentry) hevent

theorem Runs.isOneLine_of_mem_events (hpaths : tree.HasOneLinePaths)
    (hruns : tree.Runs tables set pending resolution)
    (hpending : ∀ name ∈ pending, IsOneLine name) :
    ∀ event ∈ resolution.events tree tables, IsOneLine event.message := by
  induction hruns with
  | complete => simp [Resolution.events]
  | failed hfailure =>
      intro event hevent
      simp only [Resolution.events, List.flatMap_singleton] at hevent
      exact isOneLine_of_mem_events_round haliases hpaths hpending hevent
  | next hfailure _ ih =>
      intro event hevent
      simp only [Resolution.events, List.flatMap_cons, List.mem_append] at hevent
      rcases hevent with hevent | hevent
      · exact isOneLine_of_mem_events_round haliases hpaths hpending hevent
      · refine ih ?_ event hevent
        intro name hname
        obtain ⟨entry, hentry, hincluded⟩ := List.mem_flatMap.mp (List.mem_filter.mp hname).1
        exact isOneLine_of_mem_includes (search_of_mem_found hentry) hincluded

end SourceTree

/-! ### Events of an installation -/

namespace FileSystem

variable {files after : FileSystem} {path root source : Path} {name : String} {event : Event}
  {entries : List (String × Path)} {set : HeaderSet}

theorem quoted_headerEvent (root : Path) (entry : String × Path) :
    (headerEvent root entry).quoted = [entry.2.text, (root.join ⟨entry.1⟩).text] := by
  unfold headerEvent
  split_ifs
  · rfl
  · rfl

theorem isOneLine_of_mem_events_installEach (hroot : IsOneLine root.text)
    (hentries : ∀ entry ∈ entries, IsOneLine entry.1 ∧ IsOneLine entry.2.text) :
    ∀ event ∈ (files.installEach root entries).events, IsOneLine event.message := by
  induction entries generalizing files with
  | nil => exact fun _ hevent => absurd hevent List.not_mem_nil
  | cons entry rest ih =>
      obtain ⟨name, source⟩ := entry
      obtain ⟨hname, hsource⟩ := hentries (name, source) List.mem_cons_self
      have hrest := fun other hother => hentries other (List.mem_cons_of_mem _ hother)
      have hdestination : IsOneLine (root.join ⟨name⟩).text := Path.isOneLine_join hroot hname
      intro event hevent
      unfold installEach at hevent
      split at hevent
      next => simp at hevent
      next changed first hinstall =>
          rcases List.mem_cons.mp hevent with rfl | hevent
          · rw [event_of_installHeader hinstall]
            exact Event.isOneLine_message (by simp [quoted_headerEvent, hsource, hdestination])
          · exact ih hrest event hevent

theorem isOneLine_of_mem_events_install (hpath : IsOneLine path.text)
    (hentries : ∀ entry ∈ set.entries, IsOneLine entry.1 ∧ IsOneLine entry.2.text) :
    ∀ event ∈ (files.install set path).events, IsOneLine event.message := by
  have hroot : IsOneLine (path.join ⟨installDirectory⟩).text :=
    Path.isOneLine_join hpath (by decide)
  have hinstalling : IsOneLine (Event.installing (path.join ⟨installDirectory⟩)).message :=
    Event.isOneLine_message (by simp [Event.quoted, hroot])
  have hinstalled : IsOneLine (Event.installed set.size).message :=
    Event.isOneLine_message (by simp [Event.quoted])
  intro event hevent
  unfold install at hevent
  dsimp only at hevent
  split at hevent
  next => rwa [List.mem_singleton.mp hevent]
  next made _ =>
      rw [List.cons_append, List.mem_cons, List.mem_append] at hevent
      rcases hevent with rfl | hevent | hevent
      · exact hinstalling
      · exact isOneLine_of_mem_events_installEach hroot hentries event hevent
      · split at hevent
        next => rwa [List.mem_singleton.mp hevent]
        next => simp at hevent

/-- If no operand and no name in the source tree holds a line feed, all events of
an extraction are worded on one line. -/
theorem isOneLine_of_mem_events_extract (hpath : IsOneLine path.text)
    (hpaths : (SourceTree.mk files root).HasOneLinePaths) :
    ∀ event ∈ (files.extract path root).events, IsOneLine event.message := by
  have haliases : ∀ entry ∈ Tables.standard.aliases, IsOneLine entry.2 := by decide
  have hheaders : ∀ header ∈ freestandingHeaders, IsOneLine header := by decide
  have hsearches := (SourceTree.resolve_runs (SourceTree.mk files root) .standard
    freestandingHeaders).isOneLine_of_mem_events haliases hpaths hheaders
  unfold extract
  dsimp only
  split
  next => exact hsearches
  next set hresolve =>
      intro event hevent
      rcases List.mem_append.mp hevent with hevent | hevent
      · exact hsearches event hevent
      · refine isOneLine_of_mem_events_install hpath ?_ event hevent
        exact fun entry => SourceTree.isOneLine_of_mem_entries hpaths hheaders hresolve

end FileSystem

end Freestanding
