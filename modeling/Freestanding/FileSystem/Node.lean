import Freestanding.Association
import Freestanding.Path

/-!
# Trees of files

A node is a file, a symbolic link or a directory of named nodes.  A location
leads through directories only, so a node has at most one location below
another, and `Node.get?` follows no link.  The names in one directory differ:
`Node.Distinct` says so for the whole tree, and `Node.put` and `Node.erase`
keep it.

Of what a disk holds, only names, contents and link targets are told here.  There
are no owners and no permission bits, so that nothing is refused for want of a
right; no file has two names in the tree other than by symbolic links; there are
no devices, sockets and pipes; reading and writing do not fail by themselves; and
every name is text, although the bytes of a name on a disk need not be UTF-8.
-/

namespace Freestanding

def nameLimit : Nat := 255

def IsEntryName (text : String) : Prop :=
  text ∉ ["", ".", ".."] ∧ '/' ∉ text.toList ∧ '\x00' ∉ text.toList ∧
    text.utf8ByteSize ≤ nameLimit

instance (text : String) : Decidable (IsEntryName text) :=
  inferInstanceAs (Decidable (_ ∧ _ ∧ _ ∧ _))

structure Name where
  text : String
  isEntryName : IsEntryName text
  deriving DecidableEq

def Name.ofText? (text : String) : Option Name :=
  if hname : IsEntryName text then some ⟨text, hname⟩ else none

/-- The names on the way from a node to one below it. -/
abbrev Location := List Name

def Location.path (location : Location) : Path :=
  Path.ofNames (location.map Name.text)

/-! ### Entries of a directory -/

/-- Gives a name a value: in the place of the old one, or at the end. -/
def setEntry {α : Type} (name : Name) (value : α) : List (Name × α) → List (Name × α)
  | [] => [(name, value)]
  | (other, old) :: rest =>
    if other = name then (name, value) :: rest else (other, old) :: setEntry name value rest

def eraseEntry {α : Type} (name : Name) (entries : List (Name × α)) : List (Name × α) :=
  entries.filter (·.1 ≠ name)

section Entries

variable {α : Type} {name : Name} {value : α}

theorem mem_setEntry {entry : Name × α} {entries : List (Name × α)}
    (hentry : entry ∈ setEntry name value entries) : entry = (name, value) ∨ entry ∈ entries := by
  induction entries with
  | nil => simpa [setEntry] using hentry
  | cons head rest ih =>
      obtain ⟨other, old⟩ := head
      by_cases hname : other = name
      · rw [setEntry, if_pos hname, List.mem_cons] at hentry
        exact hentry.imp_right (List.mem_cons_of_mem _)
      · rw [setEntry, if_neg hname, List.mem_cons] at hentry
        rcases hentry with rfl | hrest
        · exact .inr List.mem_cons_self
        · exact (ih hrest).imp_right (List.mem_cons_of_mem _)

theorem nodup_setEntry {entries : List (Name × α)} (hnames : (entries.map Prod.fst).Nodup) :
    ((setEntry name value entries).map Prod.fst).Nodup := by
  induction entries with
  | nil => simp [setEntry]
  | cons head rest ih =>
      obtain ⟨other, old⟩ := head
      rw [List.map_cons, List.nodup_cons] at hnames
      obtain ⟨hfresh, hrest⟩ := hnames
      by_cases hname : other = name
      · subst hname
        rw [setEntry, if_pos rfl, List.map_cons, List.nodup_cons]
        exact ⟨hfresh, hrest⟩
      · rw [setEntry, if_neg hname, List.map_cons, List.nodup_cons]
        refine ⟨?_, ih hrest⟩
        intro hmem
        obtain ⟨entry, hentry, heq⟩ := List.mem_map.mp hmem
        rcases mem_setEntry hentry with rfl | hentry
        · exact hname heq.symm
        · exact hfresh (List.mem_map.mpr ⟨entry, hentry, heq⟩)

theorem lookup_setEntry_self (entries : List (Name × α)) :
    (setEntry name value entries).lookup name = some value := by
  induction entries with
  | nil => simp [setEntry]
  | cons head rest ih =>
      obtain ⟨other, old⟩ := head
      by_cases hname : other = name
      · simp [setEntry, hname]
      · rw [setEntry, if_neg hname, lookup_cons_of_ne (Ne.symm hname), ih]

theorem lookup_setEntry_of_ne {other : Name} (hother : other ≠ name)
    (entries : List (Name × α)) :
    (setEntry name value entries).lookup other = entries.lookup other := by
  induction entries with
  | nil => rw [setEntry, lookup_cons_of_ne hother]
  | cons head rest ih =>
      obtain ⟨first, old⟩ := head
      by_cases hname : first = name
      · subst hname
        rw [setEntry, if_pos rfl, lookup_cons_of_ne hother, lookup_cons_of_ne hother]
      · rw [setEntry, if_neg hname, List.lookup_cons, List.lookup_cons, ih]

end Entries

/-! ### Nodes -/

inductive Node
  | file (contents : List UInt8)
  | link (target : Path)
  | directory (entries : List (Name × Node))

namespace Node

def isDirectory : Node → Bool
  | .directory _ => true
  | _ => false

def child? : Node → Name → Option Node
  | .directory entries, name => entries.lookup name
  | _, _ => none

def get? (node : Node) : Location → Option Node
  | [] => some node
  | name :: rest => (node.child? name).bind (·.get? rest)

theorem get?_append_singleton (node : Node) (location : Location) (name : Name) :
    node.get? (location ++ [name]) = (node.get? location).bind (·.child? name) := by
  induction location generalizing node with
  | nil => cases hchild : node.child? name <;> simp [get?, hchild]
  | cons first rest ih => cases hchild : node.child? first <;> simp [get?, hchild, ih]

/-- Places a node at a location, over the one that is there.  Without a
directory to place it in, nothing changes. -/
def put (new : Node) : Location → Node → Node
  | [], _ => new
  | name :: rest, .directory entries =>
    match entries.lookup name with
    | some child => .directory (setEntry name (put new rest child) entries)
    | none => if rest = [] then .directory (setEntry name new entries) else .directory entries
  | _ :: _, node => node

def erase : Location → Node → Node
  | [], node => node
  | [name], .directory entries => .directory (eraseEntry name entries)
  | name :: next :: rest, .directory entries =>
    match entries.lookup name with
    | some child => .directory (setEntry name (erase (next :: rest) child) entries)
    | none => .directory entries
  | _ :: _, node => node

/-- No directory of the tree has two entries of one name. -/
inductive Distinct : Node → Prop
  | file {contents : List UInt8} : Distinct (.file contents)
  | link {target : Path} : Distinct (.link target)
  | directory {entries : List (Name × Node)} (hnames : (entries.map Prod.fst).Nodup)
      (hnodes : ∀ entry ∈ entries, Distinct entry.2) : Distinct (.directory entries)

theorem Distinct.directory_nil : Distinct (.directory []) :=
  .directory .nil fun _ hentry => nomatch hentry

theorem Distinct.setEntry {name : Name} {new : Node} {entries : List (Name × Node)}
    (hdirectory : Distinct (.directory entries)) (hnew : new.Distinct) :
    Distinct (.directory (setEntry name new entries)) := by
  cases hdirectory with
  | directory hnames hnodes =>
      refine .directory (nodup_setEntry hnames) ?_
      intro entry hentry
      rcases mem_setEntry hentry with rfl | hentry
      · exact hnew
      · exact hnodes entry hentry

theorem Distinct.of_lookup {name : Name} {node : Node} {entries : List (Name × Node)}
    (hdirectory : Distinct (.directory entries)) (hlookup : entries.lookup name = some node) :
    node.Distinct := by
  cases hdirectory with
  | directory _ hnodes => exact hnodes _ (mem_of_lookup hlookup)

theorem Distinct.put {new : Node} (hnew : new.Distinct) {location : Location} {node : Node}
    (hnode : node.Distinct) : (put new location node).Distinct := by
  induction location generalizing node with
  | nil => exact hnew
  | cons name rest ih =>
      cases node with
      | file => exact hnode
      | link => exact hnode
      | directory entries =>
          simp only [Node.put]
          split
          next child hlookup => exact hnode.setEntry (ih (hnode.of_lookup hlookup))
          next =>
              split
              · exact hnode.setEntry hnew
              · exact hnode

theorem Distinct.erase {location : Location} {node : Node} (hnode : node.Distinct) :
    (Node.erase location node).Distinct := by
  fun_induction Node.erase location node with
  | case1 => exact hnode
  | case2 name entries =>
      cases hnode with
      | directory hnames hnodes =>
          refine .directory (hnames.sublist (List.filter_sublist.map _)) ?_
          intro entry hentry
          exact hnodes entry (List.mem_filter.mp hentry).1
  | case3 name next rest entries child hlookup ih =>
      exact hnode.setEntry (ih (hnode.of_lookup hlookup))
  | case4 => exact hnode
  | case5 => exact hnode

end Node

end Freestanding
