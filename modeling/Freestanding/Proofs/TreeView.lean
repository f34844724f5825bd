import Freestanding.FileSystem.Access

/-!
# A tree seen from its locations

For most purposes a file system is two partial functions on locations: the kind
of the node there, and the contents if it is a file.  The kinds decide where
paths lead; the contents are what files are for.  A tree is closed under going
up, which `FileSystem.kind?_parent` says, and placing a node without entries
changes both functions at its own location and nowhere else.
-/

namespace Freestanding

/-- What a node is, without the contents of a file and the entries of a
directory. -/
inductive Kind
  | file
  | link (target : Path)
  | directory
  deriving DecidableEq

namespace Node

def kind : Node → Kind
  | .file _ => .file
  | .link target => .link target
  | .directory _ => .directory

def contents? : Node → Option (List UInt8)
  | .file contents => some contents
  | _ => none

theorem isDirectory_iff_kind {node : Node} :
    node.isDirectory = true ↔ node.kind = .directory := by
  cases node <;> simp [isDirectory, kind]

theorem child?_eq_none_of_kind {node : Node} (hkind : node.kind ≠ .directory) (name : Name) :
    node.child? name = none := by
  cases node with
  | file => rfl
  | link => rfl
  | directory => exact absurd rfl hkind

/-! ### Placing a node -/

section Put

variable {β : Type} {view : Node → β} {new : Node} {name : Name}

/-- Placing a node without entries in a directory changes what is seen at its
location only, provided that nothing is seen of the entries of a directory and
that the node in its place had no entries either. -/
theorem map_get?_put (hview : ∀ entries others, view (.directory entries) = view (.directory others))
    (hnew : ∀ more, new.child? more = none) {entries : List (Name × Node)}
    (hold : ∀ old, entries.lookup name = some old → ∀ more, old.child? more = none)
    {parent : Location} {root : Node} (hparent : root.get? parent = some (.directory entries))
    (location : Location) :
    ((put new (parent ++ [name]) root).get? location).map view =
      if location = parent ++ [name] then some (view new) else (root.get? location).map view := by
  induction parent generalizing root location with
  | nil =>
      obtain rfl : root = .directory entries := by simpa [get?] using hparent
      have hput : put new ([] ++ [name]) (.directory entries) =
          .directory (setEntry name new entries) := by
        simp only [List.nil_append, put]
        cases entries.lookup name <;> simp
      rw [hput]
      cases location with
      | nil => simp [get?, hview _ entries]
      | cons first rest =>
          simp only [get?, child?, List.nil_append, List.cons.injEq]
          by_cases hfirst : first = name
          · subst hfirst
            rw [lookup_setEntry_self]
            cases rest with
            | nil => simp [get?]
            | cons second rest =>
                cases hlookup : entries.lookup first with
                | none => simp [get?, hnew]
                | some old => simp [get?, hnew, hold old hlookup]
          · rw [lookup_setEntry_of_ne hfirst]
            simp [hfirst]
  | cons head tail ih =>
      cases root with
      | file => simp [get?, child?] at hparent
      | link => simp [get?, child?] at hparent
      | directory others =>
          cases hhead : others.lookup head with
          | none => simp [get?, child?, hhead] at hparent
          | some child =>
              have hchild : child.get? tail = some (.directory entries) := by
                simpa [get?, child?, hhead] using hparent
              have hput : put new (head :: tail ++ [name]) (.directory others) =
                  .directory (setEntry head (put new (tail ++ [name]) child) others) := by
                simp only [List.cons_append, put, hhead]
              rw [hput]
              cases location with
              | nil => simp [get?, hview _ others]
              | cons first rest =>
                  simp only [get?, child?, List.cons_append, List.cons.injEq]
                  by_cases hfirst : first = head
                  · subst hfirst
                    rw [lookup_setEntry_self, hhead]
                    simpa using ih hchild rest
                  · rw [lookup_setEntry_of_ne hfirst]
                    simp [hfirst]

end Put

end Node

namespace FileSystem

/-- The kind of the node at a location. -/
def kind? (files : FileSystem) (location : Location) : Option Kind :=
  (files.root.get? location).map Node.kind

/-- The contents of the file at a location. -/
def contents? (files : FileSystem) (location : Location) : Option (List UInt8) :=
  (files.root.get? location).bind Node.contents?

variable {files : FileSystem} {location : Location} {name : Name}

theorem isDirectoryAt_iff_kind? :
    files.root.isDirectoryAt location = true ↔ files.kind? location = some .directory := by
  unfold Node.isDirectoryAt kind?
  cases files.root.get? location with
  | none => simp
  | some node => simp [Node.isDirectory_iff_kind]

/-- What has a location below another one is an entry of a directory. -/
theorem kind?_parent (hkind : files.kind? (location ++ [name]) ≠ none) :
    files.kind? location = some .directory := by
  unfold kind? at hkind ⊢
  rw [Node.get?_append_singleton] at hkind
  cases hget : files.root.get? location with
  | none => simp [hget] at hkind
  | some node =>
      by_cases hnode : node.kind = .directory
      · simp [hnode]
      · simp [hget, Node.child?_eq_none_of_kind hnode] at hkind

theorem contents?_eq_some_iff {contents : List UInt8} :
    files.contents? location = some contents ↔
      files.root.get? location = some (.file contents) := by
  unfold contents?
  cases files.root.get? location with
  | none => simp
  | some node => cases node <;> simp [Node.contents?]

theorem kind?_of_contents? {contents : List UInt8}
    (hcontents : files.contents? location = some contents) : files.kind? location = some .file := by
  rw [kind?, contents?_eq_some_iff.mp hcontents]
  rfl

theorem exists_contents_of_kind? (hkind : files.kind? location = some .file) :
    ∃ contents, files.contents? location = some contents := by
  obtain ⟨node, hget, hnode⟩ := Option.map_eq_some_iff.mp hkind
  cases node with
  | file contents => exact ⟨contents, contents?_eq_some_iff.mpr hget⟩
  | link => simp [Node.kind] at hnode
  | directory => simp [Node.kind] at hnode

section Put

variable {new : Node} {distinct : new.Distinct}

/-- Placing a node without entries where no directory is. -/
theorem map_get?_root_put {β : Type} {view : Node → β}
    (hview : ∀ entries others, view (.directory entries) = view (.directory others))
    (hnew : ∀ more, new.child? more = none)
    (hparent : files.kind? location = some .directory)
    (hold : files.kind? (location ++ [name]) ≠ some .directory) (other : Location) :
    ((files.put (location ++ [name]) new distinct).root.get? other).map view =
      if other = location ++ [name] then some (view new)
      else (files.root.get? other).map view := by
  unfold kind? at hparent hold
  obtain ⟨node, hget, hnode⟩ := Option.map_eq_some_iff.mp hparent
  cases node with
  | file => simp [Node.kind] at hnode
  | link => simp [Node.kind] at hnode
  | directory entries =>
      refine Node.map_get?_put hview hnew ?_ hget other
      intro old hlookup
      apply Node.child?_eq_none_of_kind
      intro hdirectory
      apply hold
      rw [Node.get?_append_singleton, hget]
      simp [Node.child?, hlookup, hdirectory]

theorem kind?_put (hnew : ∀ more, new.child? more = none)
    (hparent : files.kind? location = some .directory)
    (hold : files.kind? (location ++ [name]) ≠ some .directory) (other : Location) :
    (files.put (location ++ [name]) new distinct).kind? other =
      if other = location ++ [name] then some new.kind else files.kind? other :=
  map_get?_root_put (fun _ _ => rfl) hnew hparent hold other

theorem contents?_put (hnew : ∀ more, new.child? more = none)
    (hparent : files.kind? location = some .directory)
    (hold : files.kind? (location ++ [name]) ≠ some .directory) (other : Location) :
    (files.put (location ++ [name]) new distinct).contents? other =
      if other = location ++ [name] then new.contents? else files.contents? other := by
  have hjoin : ∀ node : Option Node,
      node.bind Node.contents? = (node.map Node.contents?).join := by
    intro node
    cases node <;> rfl
  rw [contents?, contents?, hjoin, hjoin,
    map_get?_root_put (fun _ _ => rfl) hnew hparent hold other]
  split <;> rfl

end Put

end FileSystem

end Freestanding
