/-
Liveness/Unique.lean

Lists without repetitions: each item once, at the place where it first stands.
-/
namespace Liveness

variable {α : Type} [DecidableEq α]

/-- Each item of a list once, in the order of first appearance. -/
def unique : List α → List α
  | [] => []
  | x :: xs => x :: (unique xs).filter (· ≠ x)

@[simp] theorem unique_nil : unique ([] : List α) = [] := rfl

@[simp] theorem mem_unique {a : α} {xs : List α} : a ∈ unique xs ↔ a ∈ xs := by
  induction xs with
  | nil => simp
  | cons x xs ih =>
    by_cases h : a = x
    · simp [unique, h]
    · simp [unique, h, ih]

/-- No item is left twice. -/
theorem nodup_unique (xs : List α) : (unique xs).Nodup := by
  induction xs with
  | nil => exact List.nodup_nil
  | cons x xs ih =>
    refine List.nodup_cons.mpr ⟨?_, ih.filter _⟩
    simp

/-- A list without repetitions is left as it is. -/
theorem unique_eq_self {xs : List α} (h : xs.Nodup) : unique xs = xs := by
  induction xs with
  | nil => rfl
  | cons x xs ih =>
    obtain ⟨hx, hxs⟩ := List.nodup_cons.mp h
    rw [unique, ih hxs]
    refine congrArg _ (List.filter_eq_self.mpr fun a ha => ?_)
    have : a ≠ x := fun e => hx (e ▸ ha)
    simpa using this

end Liveness
