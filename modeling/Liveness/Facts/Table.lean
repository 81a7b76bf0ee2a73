/-
Liveness/Facts/Table.lean

Tables of name sets.  A key keeps the place at which it was first written, and a
key that was never written has the empty set.
-/
import Liveness.Facts.NameSet

namespace Liveness

/-- A table from keys to sets of names, in the order of first writing. -/
structure Table (κ : Type) where
  rows : List (κ × NameSet)
  deriving DecidableEq

namespace Table

variable {κ : Type} [DecidableEq κ]

instance : EmptyCollection (Table κ) := ⟨⟨[]⟩⟩

/-- The keys of a table, in order. -/
def keys (t : Table κ) : List κ :=
  t.rows.map (·.1)

/-- The set of a key in some rows. -/
def find? (key : κ) : List (κ × NameSet) → Option NameSet
  | [] => none
  | (k, names) :: rest => if k = key then some names else find? key rest

/-- The set of a key, if it was written. -/
def get? (t : Table κ) (key : κ) : Option NameSet :=
  find? key t.rows

/-- The set of a key, empty if it was never written. -/
def get (t : Table κ) (key : κ) : NameSet :=
  (t.get? key).getD ∅

/-- Write the set of a key in some rows. -/
def setRow (key : κ) (names : NameSet) : List (κ × NameSet) → List (κ × NameSet)
  | [] => [(key, names)]
  | (k, old) :: rest => if k = key then (k, names) :: rest else (k, old) :: setRow key names rest

/-- Write the set of a key. -/
def set (t : Table κ) (key : κ) (names : NameSet) : Table κ :=
  ⟨setRow key names t.rows⟩

/-- Add names to the set of a key. -/
def add (t : Table κ) (key : κ) (names : NameSet) : Table κ :=
  t.set key (t.get key ∪ names)

/-- The table with an empty set for each of some keys. -/
def blank (keys : List κ) : Table κ :=
  ⟨keys.map (·, ∅)⟩

/-- The table with some rows written one after another. -/
def ofRows (rows : List (κ × NameSet)) : Table κ :=
  rows.foldl (fun t row => t.set row.1 row.2) ∅

@[simp] theorem find?_setRow_self (key : κ) (names : NameSet) (rows : List (κ × NameSet)) :
    find? key (setRow key names rows) = some names := by
  induction rows with
  | nil => simp [setRow, find?]
  | cons row rest ih =>
    obtain ⟨k, old⟩ := row
    by_cases h : k = key <;> simp [setRow, find?, h, ih]

theorem find?_setRow_ne {key other : κ} (h : other ≠ key) (names : NameSet)
    (rows : List (κ × NameSet)) : find? other (setRow key names rows) = find? other rows := by
  induction rows with
  | nil => simp [setRow, find?, h.symm]
  | cons row rest ih =>
    obtain ⟨k, old⟩ := row
    by_cases hk : k = key
    · subst hk; simp [setRow, find?, h.symm]
    · by_cases ho : k = other
      · subst ho; simp [setRow, find?, hk]
      · simp [setRow, find?, hk, ho, ih]

@[simp] theorem get_set_self (t : Table κ) (key : κ) (names : NameSet) :
    (t.set key names).get key = names := by
  simp [get, get?, set]

theorem get_set_ne {key other : κ} (h : other ≠ key) (t : Table κ) (names : NameSet) :
    (t.set key names).get other = t.get other := by
  simp [get, get?, set, find?_setRow_ne h]

@[simp] theorem get_empty (key : κ) : (∅ : Table κ).get key = ∅ := rfl

end Table

end Liveness
