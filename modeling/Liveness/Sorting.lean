/-
Liveness/Sorting.lean

Stable sorting by insertion.  Items that are equal under the order keep the
order in which they came, and a list that is sorted already is left as it is.
The recursion follows the list, so closed instances evaluate.
-/
namespace Liveness.Sorting

variable {α : Type}

/-- Put an item in front of the first one that is not below it. -/
def insertBy (less : α → α → Bool) (x : α) : List α → List α
  | [] => [x]
  | y :: ys => if less y x then y :: insertBy less x ys else x :: y :: ys

/-- Sort a list by a strict order, equal items in the order in which they came. -/
def stableBy (less : α → α → Bool) : List α → List α
  | [] => []
  | x :: xs => insertBy less x (stableBy less xs)

/-- Sort a list by an integer key. -/
def byKey (key : α → Int) (xs : List α) : List α :=
  stableBy (fun x y => key x < key y) xs

theorem insertBy_perm (less : α → α → Bool) (x : α) (xs : List α) :
    (insertBy less x xs).Perm (x :: xs) := by
  induction xs with
  | nil => exact .refl _
  | cons y ys ih =>
    by_cases h : less y x
    · simpa [insertBy, h] using (ih.cons y).trans (.swap x y ys)
    · simp [insertBy, h]

/-- Sorting loses and adds nothing. -/
theorem stableBy_perm (less : α → α → Bool) (xs : List α) :
    (stableBy less xs).Perm xs := by
  induction xs with
  | nil => exact .refl _
  | cons x xs ih => exact (insertBy_perm less x _).trans (ih.cons x)

@[simp] theorem mem_stableBy {less : α → α → Bool} {xs : List α} {x : α} :
    x ∈ stableBy less xs ↔ x ∈ xs :=
  (stableBy_perm less xs).mem_iff

theorem pairwise_insertBy_key {key : α → Int} (x : α) {xs : List α}
    (h : xs.Pairwise fun a b => key a ≤ key b) :
    (insertBy (fun a b => key a < key b) x xs).Pairwise fun a b => key a ≤ key b := by
  induction xs with
  | nil => simp [insertBy]
  | cons y ys ih =>
    obtain ⟨hy, hys⟩ := List.pairwise_cons.mp h
    by_cases hlt : key y < key x
    · simp only [insertBy, hlt, decide_true, if_true]
      refine List.pairwise_cons.mpr ⟨fun z hz => ?_, ih hys⟩
      rcases List.mem_cons.mp ((insertBy_perm _ x ys).mem_iff.mp hz) with rfl | hz
      · exact Int.le_of_lt hlt
      · exact hy z hz
    · simp only [insertBy, hlt, decide_false, Bool.false_eq_true, if_false]
      refine List.pairwise_cons.mpr ⟨fun z hz => ?_, h⟩
      have hxy : key x ≤ key y := Int.not_lt.mp hlt
      rcases List.mem_cons.mp hz with rfl | hz
      · exact hxy
      · exact Int.le_trans hxy (hy z hz)

/-- Sorting by a key puts the keys in order. -/
theorem pairwise_byKey (key : α → Int) (xs : List α) :
    (byKey key xs).Pairwise fun a b => key a ≤ key b := by
  induction xs with
  | nil => exact .nil
  | cons x xs ih => exact pairwise_insertBy_key x ih

/-- A list in which nothing is below an earlier item is sorted already. -/
theorem stableBy_eq_self {less : α → α → Bool} {xs : List α}
    (h : xs.Pairwise fun x y => less y x = false) : stableBy less xs = xs := by
  induction xs with
  | nil => rfl
  | cons x xs ih =>
    obtain ⟨hx, hxs⟩ := List.pairwise_cons.mp h
    rw [stableBy, ih hxs]
    cases xs with
    | nil => rfl
    | cons y ys => simp [insertBy, hx y (by simp)]

end Liveness.Sorting
