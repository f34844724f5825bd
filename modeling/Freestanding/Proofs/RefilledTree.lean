import Freestanding.Proofs.LeastMatch

/-!
# Trees with other contents

Writing to a file that is there changes its contents and nothing else: every
directory holds the same entries in the same order as before.  What is left alone
is the tree with all files emptied.

A tree whose names are distinct is told by that and by what its files hold.  So
two file systems that differ in contents only are equal when their contents are.
-/

namespace Freestanding

section Entries

variable {α β : Type} {name : Name} {value : α}

theorem lookup_map (f : α → β) (entries : List (Name × α)) :
    (entries.map fun entry => (entry.1, f entry.2)).lookup name = (entries.lookup name).map f := by
  induction entries with
  | nil => rfl
  | cons head rest ih =>
      obtain ⟨other, old⟩ := head
      by_cases hname : name = other
      · simp [hname]
      · rw [List.map_cons, lookup_cons_of_ne hname, lookup_cons_of_ne hname, ih]

theorem map_setEntry (f : α → β) (entries : List (Name × α)) :
    (setEntry name value entries).map (fun entry => (entry.1, f entry.2)) =
      setEntry name (f value) (entries.map fun entry => (entry.1, f entry.2)) := by
  induction entries with
  | nil => rfl
  | cons head rest ih =>
      by_cases hname : head.1 = name
      · simp [setEntry, hname]
      · simp [setEntry, hname, ih]

theorem setEntry_eq_self {entries : List (Name × α)} (hlookup : entries.lookup name = some value) :
    setEntry name value entries = entries := by
  induction entries with
  | nil => simp at hlookup
  | cons head rest ih =>
      obtain ⟨other, old⟩ := head
      by_cases hname : other = name
      · subst hname
        rw [List.lookup_cons_self, Option.some.injEq] at hlookup
        simp [setEntry, hlookup]
      · rw [lookup_cons_of_ne (Ne.symm hname)] at hlookup
        rw [setEntry, if_neg hname, ih hlookup]

end Entries

namespace Node

mutual

/-- A tree with all its files emptied. -/
def emptied : Node → Node
  | .file _ => .file []
  | .link target => .link target
  | .directory entries => .directory (emptiedEach entries)

def emptiedEach : List (Name × Node) → List (Name × Node)
  | [] => []
  | (name, node) :: rest => (name, node.emptied) :: emptiedEach rest

end

theorem emptiedEach_eq_map (entries : List (Name × Node)) :
    emptiedEach entries = entries.map fun entry => (entry.1, entry.2.emptied) := by
  induction entries with
  | nil => rfl
  | cons entry rest ih => rw [emptiedEach, ih, List.map_cons]

theorem kind_emptied (node : Node) : node.emptied.kind = node.kind := by
  cases node <;> rfl

theorem child?_emptied (node : Node) (name : Name) :
    node.emptied.child? name = (node.child? name).map emptied := by
  cases node with
  | file => rfl
  | link => rfl
  | directory entries =>
      rw [emptied, child?, child?, emptiedEach_eq_map]
      exact lookup_map emptied entries

/-- Emptying files commutes with going to a location. -/
theorem get?_emptied (node : Node) (location : Location) :
    node.emptied.get? location = (node.get? location).map emptied := by
  induction location generalizing node with
  | nil => rfl
  | cons name rest ih =>
      rw [get?, get?, child?_emptied]
      cases node.child? name with
      | none => rfl
      | some child => exact ih child

theorem emptied_put {node : Node} {location : Location} {old : List UInt8}
    (hfile : node.get? location = some (.file old)) (contents : List UInt8) :
    (put (.file contents) location node).emptied = node.emptied := by
  induction location generalizing node with
  | nil =>
      obtain rfl : node = .file old := by simpa [get?] using hfile
      rfl
  | cons name rest ih =>
      obtain ⟨child, hchild, hrest⟩ := Option.bind_eq_some_iff.mp hfile
      cases node with
      | file => cases hchild
      | link => cases hchild
      | directory entries =>
          have hlookup : entries.lookup name = some child := hchild
          have hsame : (entries.map fun entry => (entry.1, entry.2.emptied)).lookup name =
              some child.emptied := by
            rw [lookup_map, hlookup, Option.map_some]
          simp only [put, hlookup, emptied, emptiedEach_eq_map]
          rw [map_setEntry, ih hrest, setEntry_eq_self hsame]

/-- A tree with distinct names is told by itself with its files emptied and by
what they hold. -/
theorem Distinct.eq_of_emptied_eq {node other : Node} (hnode : node.Distinct)
    (hother : other.Distinct) (hempty : node.emptied = other.emptied)
    (hcontents : ∀ location, (node.get? location).bind contents? =
      (other.get? location).bind contents?) : node = other := by
  induction hnode generalizing other with
  | @file contents =>
      cases hother with
      | @file held =>
          have hsame : some contents = some held := hcontents []
          rw [Option.some.inj hsame]
      | link => simp [emptied] at hempty
      | directory => simp [emptied] at hempty
  | link =>
      cases hother with
      | file => simp [emptied] at hempty
      | link => simpa [emptied] using hempty
      | directory => simp [emptied] at hempty
  | @directory entries hnames _ ih =>
      cases hother with
      | file => simp [emptied] at hempty
      | link => simp [emptied] at hempty
      | @directory others hothers hnodes =>
          rw [emptied, emptied, directory.injEq, emptiedEach_eq_map, emptiedEach_eq_map] at hempty
          have hlength : entries.length = others.length := by
            simpa using congrArg List.length hempty
          rw [directory.injEq]
          refine List.ext_getElem hlength ?_
          intro i hi hiOther
          have hentry : entries[i] ∈ entries := List.getElem_mem hi
          have hotherEntry : others[i] ∈ others := List.getElem_mem hiOther
          have hemptied := List.getElem_of_eq hempty (i := i) (by simpa using hi)
          rw [List.getElem_map, List.getElem_map, Prod.mk.injEq] at hemptied
          have hlookup : entries.lookup entries[i].1 = some entries[i].2 :=
            (lookup_eq_some_iff_of_nodup hnames).mpr hentry
          have hlookupOther : others.lookup others[i].1 = some others[i].2 :=
            (lookup_eq_some_iff_of_nodup hothers).mpr hotherEntry
          rw [← hemptied.1] at hlookupOther
          have hchild : entries[i].2 = others[i].2 := by
            refine ih _ hentry (hnodes _ hotherEntry) hemptied.2 ?_
            intro location
            have hbelow := hcontents (entries[i].1 :: location)
            simpa only [get?, child?, hlookup, hlookupOther, Option.bind_some] using hbelow
          exact Prod.ext hemptied.1 hchild

end Node

namespace FileSystem

/-- Whether a file system differs from another one in the contents of files
only. -/
structure Refills (before after : FileSystem) : Prop where
  current : after.current = before.current
  emptied : after.root.emptied = before.root.emptied

variable {files before between after : FileSystem} {location : Location}

theorem Refills.refl (files : FileSystem) : files.Refills files :=
  ⟨rfl, rfl⟩

theorem Refills.trans (hfirst : before.Refills between) (hsecond : between.Refills after) :
    before.Refills after :=
  ⟨hsecond.current.trans hfirst.current, hsecond.emptied.trans hfirst.emptied⟩

theorem kind?_eq_kind?_emptied (files : FileSystem) (location : Location) :
    files.kind? location = (files.root.emptied.get? location).map Node.kind := by
  rw [Node.get?_emptied, Option.map_map, kind?]
  congr 1
  funext node
  exact (Node.kind_emptied node).symm

theorem Refills.kind?_eq (hrefills : before.Refills after) : after.kind? = before.kind? := by
  funext location
  rw [kind?_eq_kind?_emptied, kind?_eq_kind?_emptied, hrefills.emptied]

theorem Refills.extends (hrefills : before.Refills after) : before.Extends after := by
  refine ⟨hrefills.current, ?_⟩
  intro location kind hkind
  rwa [hrefills.kind?_eq]

theorem Refills.eq_of_contents?_eq (hrefills : before.Refills after)
    (hcontents : after.contents? = before.contents?) : after = before := by
  have hroot : after.root = before.root :=
    after.distinct.eq_of_emptied_eq before.distinct hrefills.emptied (congrFun hcontents)
  cases before
  cases after
  cases hroot
  cases hrefills.current
  rfl

theorem refills_fill (hfile : files.kind? location = some .file) (contents : List UInt8) :
    files.Refills (files.fill location contents) := by
  obtain ⟨old, hold⟩ := exists_contents_of_kind? hfile
  exact ⟨rfl, Node.emptied_put (contents?_eq_some_iff.mp hold) contents⟩

theorem refills_fill_fill (hfile : files.kind? location = some .file)
    (first second : List UInt8) :
    files.Refills ((files.fill location first).fill location second) := by
  have hfirst := refills_fill hfile first
  rw [← hfirst.kind?_eq] at hfile
  exact hfirst.trans (refills_fill hfile second)

end FileSystem

end Freestanding
