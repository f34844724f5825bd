import Freestanding.Association
import Freestanding.Path

/-!
# Header sets

A header set says for each of its names where the header lies in the source
tree.  Its entries stand in the order of their names, each name once, so two
sets that answer every look-up alike are equal.

Names are compared by their code points, which is the order of their UTF-8
bytes.
-/

namespace Freestanding

def NamesIncrease (entries : List (String × Path)) : Prop :=
  entries.Pairwise fun a b => a.1 < b.1

structure HeaderSet where
  entries : List (String × Path)
  increasing : NamesIncrease entries
  deriving DecidableEq

namespace HeaderSet

def empty : HeaderSet := ⟨[], .nil⟩

def names (set : HeaderSet) : List String :=
  set.entries.map Prod.fst

def size (set : HeaderSet) : Nat :=
  set.entries.length

def get? (set : HeaderSet) (name : String) : Option Path :=
  set.entries.lookup name

def contains (set : HeaderSet) (name : String) : Bool :=
  (set.get? name).isSome

def insertEntry (name : String) (location : Path) : List (String × Path) → List (String × Path)
  | [] => [(name, location)]
  | (other, old) :: rest =>
    if name = other then (name, location) :: rest
    else if name < other then (name, location) :: (other, old) :: rest
    else (other, old) :: insertEntry name location rest

theorem mem_insertEntry {name : String} {location : Path} {entry : String × Path}
    {entries : List (String × Path)} (hentry : entry ∈ insertEntry name location entries) :
    entry = (name, location) ∨ entry ∈ entries := by
  induction entries with
  | nil => simpa [insertEntry] using hentry
  | cons head rest ih =>
      obtain ⟨other, old⟩ := head
      rw [insertEntry] at hentry
      split at hentry
      · rw [List.mem_cons] at hentry
        exact hentry.imp_right (List.mem_cons_of_mem _)
      · split at hentry
        · exact List.mem_cons.mp hentry
        · rcases List.mem_cons.mp hentry with rfl | hrest
          · exact .inr List.mem_cons_self
          · exact (ih hrest).imp_right (List.mem_cons_of_mem _)

theorem namesIncrease_insertEntry {name : String} {location : Path}
    {entries : List (String × Path)} (hincrease : NamesIncrease entries) :
    NamesIncrease (insertEntry name location entries) := by
  induction entries with
  | nil => simp [NamesIncrease, insertEntry]
  | cons head rest ih =>
      obtain ⟨other, old⟩ := head
      obtain ⟨hfirst, htail⟩ := List.pairwise_cons.mp hincrease
      rw [insertEntry]
      split
      next hname =>
          subst hname
          exact .cons hfirst htail
      next hname =>
          split
          next hless =>
              refine .cons ?_ hincrease
              intro entry hentry
              rcases List.mem_cons.mp hentry with rfl | hentry
              · exact hless
              · exact String.lt_trans hless (hfirst entry hentry)
          next hless =>
              refine .cons ?_ (ih htail)
              intro entry hentry
              rcases mem_insertEntry hentry with rfl | hentry
              · exact Std.lt_of_le_of_ne (String.not_lt.mp hless) (Ne.symm hname)
              · exact hfirst entry hentry

def insert (set : HeaderSet) (name : String) (location : Path) : HeaderSet :=
  ⟨insertEntry name location set.entries, namesIncrease_insertEntry set.increasing⟩

/-- Gives names their locations one after the other, so the last one counts. -/
def insertMany (set : HeaderSet) (entries : List (String × Path)) : HeaderSet :=
  entries.foldl (fun set entry => set.insert entry.1 entry.2) set

theorem lookup_insertEntry (name other : String) (location : Path)
    (entries : List (String × Path)) :
    (insertEntry name location entries).lookup other =
      if other = name then some location else entries.lookup other := by
  induction entries with
  | nil =>
      by_cases hother : other = name
      · simp [insertEntry, hother]
      · rw [insertEntry, lookup_cons_of_ne hother, if_neg hother]
  | cons head rest ih =>
      obtain ⟨first, old⟩ := head
      by_cases hother : other = name
      · subst hother
        by_cases hfirst : other = first
        · simp [insertEntry, hfirst]
        · rw [if_pos rfl] at ih ⊢
          rw [insertEntry, if_neg hfirst]
          split
          · simp
          · rw [lookup_cons_of_ne hfirst, ih]
      · rw [if_neg hother] at ih ⊢
        rw [insertEntry]
        split
        next hfirst => rw [← hfirst, lookup_cons_of_ne hother, lookup_cons_of_ne hother]
        next =>
            split
            · rw [lookup_cons_of_ne hother]
            · rw [List.lookup_cons, List.lookup_cons, ih]

/-- A look-up after an insertion answers with the new location under the new
name, and as before under every other. -/
theorem get?_insert (set : HeaderSet) (name other : String) (location : Path) :
    (set.insert name location).get? other =
      if other = name then some location else set.get? other :=
  lookup_insertEntry name other location set.entries

theorem get?_of_mem_entries {set : HeaderSet} {name : String} {location : Path}
    (hentry : (name, location) ∈ set.entries) : set.get? name = some location := by
  obtain ⟨entries, hincreasing⟩ := set
  change (name, location) ∈ entries at hentry
  change entries.lookup name = some location
  induction entries with
  | nil => simp at hentry
  | cons head rest ih =>
      obtain ⟨hfirst, htail⟩ := List.pairwise_cons.mp hincreasing
      rcases List.mem_cons.mp hentry with rfl | hrest
      · simp
      · have hne : name ≠ head.1 := by
          rintro rfl
          exact String.lt_irrefl _ (hfirst (head.1, location) hrest)
        rw [lookup_cons_of_ne hne]
        exact ih htail hrest

theorem contains_iff_mem_names (set : HeaderSet) (name : String) :
    set.contains name = true ↔ name ∈ set.names := by
  rw [contains, Option.isSome_iff_exists]
  constructor
  · rintro ⟨location, hget⟩
    exact List.mem_map.mpr ⟨_, mem_of_lookup hget, rfl⟩
  · intro hname
    obtain ⟨entry, hentry, rfl⟩ := List.mem_map.mp hname
    exact ⟨entry.2, get?_of_mem_entries hentry⟩

theorem mem_names_insert (set : HeaderSet) (name other : String) (location : Path) :
    other ∈ (set.insert name location).names ↔ other = name ∨ other ∈ set.names := by
  rw [← contains_iff_mem_names, ← contains_iff_mem_names, contains, get?_insert]
  by_cases hother : other = name
  · simp [hother]
  · simp [hother, contains]

theorem mem_names_insertMany (set : HeaderSet) (entries : List (String × Path))
    (other : String) :
    other ∈ (set.insertMany entries).names ↔
      other ∈ entries.map Prod.fst ∨ other ∈ set.names := by
  induction entries generalizing set with
  | nil => simp [insertMany]
  | cons entry rest ih =>
      have hrest := ih (set.insert entry.1 entry.2)
      simp only [insertMany, List.foldl_cons] at hrest ⊢
      rw [hrest, mem_names_insert, List.map_cons, List.mem_cons]
      exact or_left_comm.trans or_assoc.symm

/-- A location in a set after insertions is one of those inserted, or it was
there before. -/
theorem mem_or_of_get?_insertMany {set : HeaderSet} {entries : List (String × Path)}
    {name : String} {location : Path}
    (hget : (set.insertMany entries).get? name = some location) :
    (name, location) ∈ entries ∨ set.get? name = some location := by
  induction entries generalizing set with
  | nil => exact .inr hget
  | cons entry rest ih =>
      have hstep : (name, location) ∈ rest ∨
          (set.insert entry.1 entry.2).get? name = some location := ih hget
      rcases hstep with hrest | hbefore
      · exact .inl (List.mem_cons_of_mem _ hrest)
      · rw [get?_insert] at hbefore
        by_cases hname : name = entry.1
        · rw [if_pos hname, Option.some.injEq] at hbefore
          exact .inl (List.mem_cons.mpr (.inl (Prod.ext hname hbefore.symm)))
        · rw [if_neg hname] at hbefore
          exact .inr hbefore

end HeaderSet

end Freestanding
