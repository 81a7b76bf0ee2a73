/-
Liveness/Facts/NameSet.lean

Finite sets of names.  A set is a strictly increasing list, in the order of code
points, so two sets with the same members are equal (`ext`) and equality is
decidable.  Everything else is said through membership.
-/
namespace Liveness

/-- Put a name into a strictly increasing list. -/
def insertName (x : String) : List String → List String
  | [] => [x]
  | y :: ys => if x < y then x :: y :: ys else if x = y then y :: ys else y :: insertName x ys

theorem mem_insertName {x a : String} {ys : List String} :
    a ∈ insertName x ys ↔ a = x ∨ a ∈ ys := by
  induction ys with
  | nil => simp [insertName]
  | cons y ys ih =>
    rw [insertName]
    split
    · simp
    · split
      · next h => subst h; simp
      · simp only [List.mem_cons, ih]
        constructor
        · rintro (h | h | h) <;> simp [h]
        · rintro (h | h | h) <;> simp [h]

theorem pairwise_insertName {x : String} {ys : List String} (h : ys.Pairwise (· < ·)) :
    (insertName x ys).Pairwise (· < ·) := by
  induction ys with
  | nil => simp [insertName]
  | cons y ys ih =>
    obtain ⟨hy, hys⟩ := List.pairwise_cons.mp h
    rw [insertName]
    split
    · next hxy =>
      refine List.pairwise_cons.mpr ⟨fun a ha => ?_, h⟩
      rcases List.mem_cons.mp ha with rfl | ha
      · exact hxy
      · exact String.lt_trans hxy (hy a ha)
    · split
      · exact h
      · next hxy hne =>
        refine List.pairwise_cons.mpr ⟨fun a ha => ?_, ih hys⟩
        rcases mem_insertName.mp ha with rfl | ha
        · exact ((Std.lt_trichotomy a y).resolve_left hxy).resolve_left hne
        · exact hy a ha

/-- A finite set of names. -/
structure NameSet where
  toList : List String
  sorted : toList.Pairwise (· < ·)
  deriving DecidableEq

namespace NameSet

instance : Membership String NameSet := ⟨fun s x => x ∈ s.toList⟩

instance (x : String) (s : NameSet) : Decidable (x ∈ s) :=
  inferInstanceAs (Decidable (x ∈ s.toList))

instance : EmptyCollection NameSet := ⟨⟨[], .nil⟩⟩

instance : Inhabited NameSet := ⟨∅⟩

/-- A set with one more name. -/
def insert (x : String) (s : NameSet) : NameSet :=
  ⟨insertName x s.toList, pairwise_insertName s.sorted⟩

/-- The set of the names in a list. -/
def ofList (xs : List String) : NameSet :=
  xs.foldr insert ∅

/-- The names of two sets. -/
protected def union (s t : NameSet) : NameSet :=
  s.toList.foldr insert t

instance : Union NameSet := ⟨NameSet.union⟩

/-- The names of a set that are not in another. -/
protected def diff (s t : NameSet) : NameSet :=
  ⟨s.toList.filter (· ∉ t.toList), s.sorted.filter _⟩

instance : SDiff NameSet := ⟨NameSet.diff⟩

/-- Whether a set has no name. -/
def isEmpty (s : NameSet) : Bool :=
  s.toList.isEmpty

/-- The least name of a set. -/
def least? (s : NameSet) : Option String :=
  s.toList.head?

/-! ### Membership -/

theorem mem_def {x : String} {s : NameSet} : x ∈ s ↔ x ∈ s.toList := Iff.rfl

@[simp] theorem mem_toList {x : String} {s : NameSet} : x ∈ s.toList ↔ x ∈ s := Iff.rfl

@[simp] theorem not_mem_empty (x : String) : x ∉ (∅ : NameSet) := List.not_mem_nil

@[simp] theorem mem_insert {x a : String} {s : NameSet} : a ∈ s.insert x ↔ a = x ∨ a ∈ s :=
  mem_insertName

theorem mem_foldr_insert {a : String} {xs : List String} {s : NameSet} :
    a ∈ xs.foldr insert s ↔ a ∈ xs ∨ a ∈ s := by
  induction xs with
  | nil => simp
  | cons x xs ih => simp [ih, or_assoc]

@[simp] theorem mem_ofList {a : String} {xs : List String} : a ∈ ofList xs ↔ a ∈ xs := by
  simp [ofList, mem_foldr_insert]

@[simp] theorem mem_union {a : String} {s t : NameSet} : a ∈ s ∪ t ↔ a ∈ s ∨ a ∈ t :=
  mem_foldr_insert

@[simp] theorem mem_sdiff {a : String} {s t : NameSet} : a ∈ s \ t ↔ a ∈ s ∧ a ∉ t := by
  show a ∈ s.toList.filter _ ↔ _
  simp

theorem eq_of_mem_iff {xs ys : List String} (hx : xs.Pairwise (· < ·))
    (hy : ys.Pairwise (· < ·)) (h : ∀ a, a ∈ xs ↔ a ∈ ys) : xs = ys := by
  induction xs generalizing ys with
  | nil =>
    cases ys with
    | nil => rfl
    | cons y ys => exact absurd ((h y).mpr (by simp)) (by simp)
  | cons x xs ih =>
    cases ys with
    | nil => exact absurd ((h x).mp (by simp)) (by simp)
    | cons y ys =>
      obtain ⟨hx₁, hx₂⟩ := List.pairwise_cons.mp hx
      obtain ⟨hy₁, hy₂⟩ := List.pairwise_cons.mp hy
      have hxy : x = y := by
        rcases List.mem_cons.mp ((h x).mp (by simp)) with e | hm
        · exact e
        · rcases List.mem_cons.mp ((h y).mpr (by simp)) with e | hm'
          · exact e.symm
          · exact absurd (String.lt_trans (hy₁ x hm) (hx₁ y hm')) (String.lt_irrefl y)
      subst hxy
      refine congrArg _ (ih hx₂ hy₂ fun a => ?_)
      constructor
      · intro ha
        rcases List.mem_cons.mp ((h a).mp (by simp [ha])) with e | hm
        · subst e; exact absurd (hx₁ a ha) (String.lt_irrefl a)
        · exact hm
      · intro ha
        rcases List.mem_cons.mp ((h a).mpr (by simp [ha])) with e | hm
        · subst e; exact absurd (hy₁ a ha) (String.lt_irrefl a)
        · exact hm

/-- Sets with the same members are equal. -/
@[ext] theorem ext {s t : NameSet} (h : ∀ a, a ∈ s ↔ a ∈ t) : s = t := by
  obtain ⟨xs, hx⟩ := s
  obtain ⟨ys, hy⟩ := t
  obtain rfl : xs = ys := eq_of_mem_iff hx hy h
  rfl

end NameSet

end Liveness
