/-
Liveness/Sorting/Search.lean

Finding the place where the answers to a question turn from yes to no.  The
question may fail, and then so does the search.  If the answers do not turn just
once, which place is found depends on the items that are asked, so the order of
asking is part of what these functions do.
-/
namespace Liveness.Sorting

variable {α β ε : Type}

/-- What has come through two steps has come through each. -/
theorem bind_eq_ok {x : Except ε α} {f : α → Except ε β} {b : β} :
    (x >>= f) = .ok b ↔ ∃ a, x = .ok a ∧ f a = .ok b := by
  cases x <;> simp [bind, Except.bind]

theorem pure_eq_ok {a b : α} : (pure a : Except ε α) = .ok b ↔ a = b := by
  simp [pure, Except.pure]

/-- Ask about the item at a place; beyond the end the answer is no. -/
def askAt (ask : α → Except ε Bool) (xs : List α) (place : Nat) : Except ε Bool :=
  match xs[place]? with
  | some x => ask x
  | none => .ok false

/-- Ask whether the answer is no. -/
def negated (ask : α → Except ε Bool) (x : α) : Except ε Bool :=
  (ask x).map not

/-- The place between `low` and `high` where the answers turn to no, by halving. -/
def halve (ask : α → Except ε Bool) (xs : List α) (low high : Nat) : Except ε Nat :=
  if low < high then do
    let middle := low + (high - low) / 2
    if ← askAt ask xs middle then halve ask xs (middle + 1) high
    else halve ask xs low middle
  else .ok low
termination_by high - low

/-- Ask at growing distances until the answer is no or `limit` is reached.  Gives the last
distance that was answered by yes, and the one at which asking stopped. -/
def stride (ask : Nat → Except ε Bool) (limit last distance : Nat) : Except ε (Nat × Nat) :=
  if distance < limit then do
    if ← ask distance then stride ask limit distance (2 * distance + 1)
    else .ok (last, distance)
  else .ok (last, limit)
termination_by limit - distance

/-- The place where the answers turn to no, sought in strides from `hint` and then by halving. -/
def boundary (ask : α → Except ε Bool) (xs : List α) (hint : Nat) : Except ε Nat := do
  if ← askAt ask xs hint then
    let (last, stop) ← stride (fun d => askAt ask xs (hint + d)) (xs.length - hint) 0 1
    halve ask xs (hint + last + 1) (hint + stop)
  else
    let (last, stop) ← stride (fun d => (askAt ask xs (hint - d)).map not) (hint + 1) 0 1
    halve ask xs (hint + 1 - stop) (hint - last)

end Liveness.Sorting
