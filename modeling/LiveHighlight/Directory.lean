/-!
# Directories

A directory gives names to things. A name stands for at most one thing, a later entry takes a name over, and names are kept
in the order in which they first came in.
-/

namespace LiveHighlight

/-- Named things, at most one for each name. -/
structure Directory (α : Type) where
  entries : List (String × α)
  deriving DecidableEq, Repr

namespace Directory

variable {α : Type}

/-- The directory without names. -/
def empty : Directory α := ⟨[]⟩

instance : Inhabited (Directory α) := ⟨empty⟩

/-- What a name stands for. -/
def get? (d : Directory α) (name : String) : Option α := d.entries.lookup name

/-- Whether the name stands for something. -/
def contains (d : Directory α) (name : String) : Bool := (d.get? name).isSome

/-- Entries with one name's thing replaced, or with a new entry at the end. -/
def insertEntry (name : String) (a : α) : List (String × α) → List (String × α)
  | [] => [(name, a)]
  | entry :: rest => if name = entry.1 then (name, a) :: rest else entry :: insertEntry name a rest

/-- Lets the name stand for `a` from now on. -/
def insert (d : Directory α) (name : String) (a : α) : Directory α := ⟨insertEntry name a d.entries⟩

/-- Takes a name out. -/
def erase (d : Directory α) (name : String) : Directory α := ⟨d.entries.filter fun entry => entry.1 ≠ name⟩

/-- The names, in the order in which they first came in. -/
def names (d : Directory α) : List String := d.entries.map (·.1)

/-- The things named, in the order of their names. -/
def values (d : Directory α) : List α := d.entries.map (·.2)

/-- The number of names. -/
def size (d : Directory α) : Nat := d.entries.length

/-- The names in increasing order of their code points. -/
def sortedNames (d : Directory α) : List String := d.names.mergeSort fun a b => !decide (b < a)

@[simp] theorem get?_empty (name : String) : (empty : Directory α).get? name = none := rfl

theorem lookup_entry (name : String) (entry : String × α) (rest : List (String × α)) :
    (entry :: rest).lookup name = if name = entry.1 then some entry.2 else rest.lookup name := by
  obtain ⟨key, a⟩ := entry
  change (match name == key with | true => some a | false => rest.lookup name) = _
  by_cases h : name = key
  · simp [h]
  · simp [h, beq_eq_false_iff_ne.2 h]

theorem lookup_insertEntry (name other : String) (a : α) (entries : List (String × α)) :
    (insertEntry name a entries).lookup other = if other = name then some a else entries.lookup other := by
  induction entries with
  | nil => simp [insertEntry, lookup_entry]
  | cons entry rest ih =>
    simp only [insertEntry]
    split
    · next hn => simp only [lookup_entry, hn]; split <;> rfl
    · next hn =>
      simp only [lookup_entry, ih]
      split
      · next he => rw [if_neg (fun h : other = name => hn (h ▸ he))]
      · rfl

theorem lookup_filter_ne (name other : String) (entries : List (String × α)) :
    (entries.filter fun entry => entry.1 ≠ name).lookup other =
      if other = name then none else entries.lookup other := by
  induction entries with
  | nil => simp
  | cons entry rest ih =>
    by_cases hn : entry.1 = name
    · rw [List.filter_cons_of_neg (by simpa using hn), ih, lookup_entry, hn]
      split <;> rfl
    · rw [List.filter_cons_of_pos (by simpa using hn), lookup_entry, lookup_entry, ih]
      by_cases he : other = entry.1
      · rw [if_pos he, if_pos he, if_neg (fun h : other = name => hn (he ▸ h))]
      · rw [if_neg he, if_neg he]

theorem get?_insert (d : Directory α) (name other : String) (a : α) :
    (d.insert name a).get? other = if other = name then some a else d.get? other :=
  lookup_insertEntry name other a d.entries

theorem get?_erase (d : Directory α) (name other : String) :
    (d.erase name).get? other = if other = name then none else d.get? other :=
  lookup_filter_ne name other d.entries

end Directory

end LiveHighlight
