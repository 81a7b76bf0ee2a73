/-
Liveness/Sorting/Merge.lean

Merging two neighbouring runs.  A merge starts at the end where the shorter run
lies, compares heads one pair at a time, and goes over to searching when one run
has given several items in a row; how many it takes is the merge's patience,
which grows when searching did not pay and shrinks while it does.

All that a merge does is to move items from its two runs to its output, so
whatever the comparison says, the result is a permutation of the runs.
-/
import Liveness.Sorting.Search

namespace Liveness.Sorting

variable {α ε : Type}

/-- The end at which a merge starts. -/
inductive Direction where
  | forward
  | backward
  deriving DecidableEq, Repr

/-- The number of items at the head of a list that are answered by yes, by searching from the
head.  A list that is merged backward is searched as it lies, from its end. -/
def leading (direction : Direction) (ask : α → Except ε Bool) (xs : List α) : Except ε Nat :=
  match direction with
  | .forward => boundary ask xs 0
  | .backward => do
    let rest ← boundary (negated ask) xs.reverse (xs.length - 1)
    return xs.length - rest

/-- A merge under way: the items that are placed, what is left of both runs, and the patience. -/
structure Merging (α : Type) where
  out : List α
  left : List α
  right : List α
  patience : Nat

namespace Merging

/-- All items of a merge. -/
def items (m : Merging α) : List α :=
  m.out ++ m.left ++ m.right

/-- Place some items from the head of the left run. -/
def moveLeft (m : Merging α) (count : Nat) : Merging α :=
  { m with out := m.out ++ m.left.take count, left := m.left.drop count }

/-- Place some items from the head of the right run. -/
def moveRight (m : Merging α) (count : Nat) : Merging α :=
  { m with out := m.out ++ m.right.take count, right := m.right.drop count }

theorem moveLeft_perm (m : Merging α) (count : Nat) : (m.moveLeft count).items.Perm m.items := by
  simp [items, moveLeft]

theorem moveRight_perm (m : Merging α) (count : Nat) : (m.moveRight count).items.Perm m.items := by
  have h : (m.right.take count ++ (m.left ++ m.right.drop count)).Perm (m.left ++ m.right) := by
    refine (List.perm_append_comm_assoc _ _ _).trans ?_
    rw [List.take_append_drop]
  simpa [items, moveRight, List.append_assoc] using h.append_left m.out

/-- How a merge ends once a run is used up, or nothing but the last item of the shorter run is
left, which goes behind all others. -/
def settled? (direction : Direction) (m : Merging α) : Option (List α) :=
  match direction, m.left, m.right with
  | _, [], right => some (m.out ++ right)
  | _, left, [] => some (m.out ++ left)
  | .forward, [x], right => some (m.out ++ (right ++ [x]))
  | .backward, left, [x] => some (m.out ++ (left ++ [x]))
  | _, _, _ => none

theorem settled?_perm {direction : Direction} {m : Merging α} {xs : List α}
    (h : m.settled? direction = some xs) : xs.Perm m.items := by
  obtain ⟨out, left, right, patience⟩ := m
  simp only [settled?] at h
  split at h <;> cases h <;> simp only [items, List.append_assoc]
  · exact .refl _
  · rw [List.append_nil]
  · exact List.perm_append_comm.append_left _
  · exact .refl _

/-- How a merge goes on: comparing heads, with the number of items that each run has just given
in a row, or searching the left or the right run. -/
inductive Pace where
  | heads (leftRow rightRow : Nat)
  | searchLeft
  | searchRight (leftRun : Nat)

/-- The patience at the start, and the length of a find for which searching pays. -/
def startPatience : Nat := 7

/-- One step of a merge that is not settled.  `rightFirst x y` says whether the head `y` of the
right run is placed before the head `x` of the left one. -/
def step (direction : Direction) (rightFirst : α → α → Except ε Bool) (pace : Pace)
    (m : Merging α) : Except ε (Pace × Merging α) :=
  match m.left, m.right with
  | x :: _, y :: _ =>
    match pace with
    | .heads leftRow rightRow => do
      if ← rightFirst x y then
        return (if m.patience ≤ rightRow + 1 then .searchLeft else .heads 0 (rightRow + 1),
          m.moveRight 1)
      else
        return (if m.patience ≤ leftRow + 1 then .searchLeft else .heads (leftRow + 1) 0,
          m.moveLeft 1)
    | .searchLeft => do
      let run ← leading direction (negated fun x => rightFirst x y) m.left
      let m := m.moveLeft run
      if (m.settled? direction).isSome then return (.searchLeft, m)
      else return (.searchRight run, m.moveRight 1)
    | .searchRight leftRun => do
      let run ← leading direction (rightFirst x) m.right
      let m := m.moveRight run
      if (m.settled? direction).isSome then return (.searchLeft, m)
      else
        let m := m.moveLeft 1
        if (m.settled? direction).isSome then return (.searchLeft, m)
        else if startPatience ≤ leftRun || startPatience ≤ run then
          return (.searchLeft, { m with patience := max 1 (m.patience - 1) })
        else return (.heads 0 0, { m with patience := m.patience + 1 })
  | _, _ => .ok (pace, m)

theorem step_perm {direction : Direction} {rightFirst : α → α → Except ε Bool} {pace pace' : Pace}
    {m m' : Merging α} (h : m.step direction rightFirst pace = .ok (pace', m')) :
    m'.items.Perm m.items := by
  unfold step at h
  split at h
  · split at h
    · obtain ⟨answer, -, h⟩ := bind_eq_ok.mp h
      split at h <;> cases pure_eq_ok.mp h
      · exact m.moveRight_perm 1
      · exact m.moveLeft_perm 1
    · obtain ⟨run, -, h⟩ := bind_eq_ok.mp h
      dsimp only at h
      split at h <;> cases pure_eq_ok.mp h
      · exact m.moveLeft_perm run
      · exact (moveRight_perm _ 1).trans (m.moveLeft_perm run)
    · obtain ⟨run, -, h⟩ := bind_eq_ok.mp h
      have both : ((m.moveRight run).moveLeft 1).items.Perm m.items :=
        (moveLeft_perm _ 1).trans (m.moveRight_perm run)
      dsimp only at h
      split at h
      · cases pure_eq_ok.mp h
        exact m.moveRight_perm run
      · split at h
        · cases pure_eq_ok.mp h
          exact both
        · split at h <;> cases pure_eq_ok.mp h <;> exact both
  · cases h
    exact .refl _

/-- Go on until a merge is settled.  Each step places an item, so as many steps as there are
items left are enough. -/
def finish (direction : Direction) (rightFirst : α → α → Except ε Bool) :
    (steps : Nat) → Pace → Merging α → Except ε (List α × Nat)
  | 0, _, m => .ok (m.items, m.patience)
  | steps + 1, pace, m =>
    match m.settled? direction with
    | some xs => .ok (xs, m.patience)
    | none => do
      let (pace, m) ← m.step direction rightFirst pace
      finish direction rightFirst steps pace m

theorem finish_perm {direction : Direction} {rightFirst : α → α → Except ε Bool} {steps : Nat}
    {pace : Pace} {m : Merging α} {xs : List α} {patience : Nat}
    (h : m.finish direction rightFirst steps pace = .ok (xs, patience)) : xs.Perm m.items := by
  induction steps generalizing pace m with
  | zero =>
    cases h
    exact .refl _
  | succ steps ih =>
    unfold finish at h
    split at h
    · rename_i hs
      cases h
      exact settled?_perm hs
    · obtain ⟨⟨pace', m'⟩, hstep, h⟩ := bind_eq_ok.mp h
      exact (ih h).trans (step_perm hstep)

end Merging

/-- Merge two runs from the front, where the head of the right one is known to come first. -/
def mergeForward (less : α → α → Except ε Bool) (patience : Nat) (left right : List α) :
    Except ε (List α × Nat) :=
  let m : Merging α := { out := [], left, right, patience }
  (m.moveRight 1).finish .forward (fun x y => less y x) (left.length + right.length) (.heads 0 0)

theorem mergeForward_perm {less : α → α → Except ε Bool} {patience patience' : Nat}
    {left right xs : List α} (h : mergeForward less patience left right = .ok (xs, patience')) :
    xs.Perm (left ++ right) :=
  (Merging.finish_perm h).trans (Merging.moveRight_perm _ 1)

/-- Merge two runs from the back, where the last item of the left one is known to come last. -/
def mergeBackward (less : α → α → Except ε Bool) (patience : Nat) (left right : List α) :
    Except ε (List α × Nat) := do
  let m : Merging α := { out := [], left := left.reverse, right := right.reverse, patience }
  let (xs, patience) ← (m.moveLeft 1).finish .backward (fun x y => negated (less y) x)
    (left.length + right.length) (.heads 0 0)
  return (xs.reverse, patience)

theorem mergeBackward_perm {less : α → α → Except ε Bool} {patience patience' : Nat}
    {left right xs : List α} (h : mergeBackward less patience left right = .ok (xs, patience')) :
    xs.Perm (left ++ right) := by
  obtain ⟨⟨ys, p⟩, hys, h⟩ := bind_eq_ok.mp h
  cases pure_eq_ok.mp h
  have hperm : ys.Perm (left.reverse ++ right.reverse) :=
    (Merging.finish_perm hys).trans (Merging.moveLeft_perm _ 1)
  exact (List.reverse_perm ys).trans
    (hperm.trans ((List.reverse_perm left).append (List.reverse_perm right)))

/-- Merge two runs from the end where the shorter one lies. -/
def merge (less : α → α → Except ε Bool) (patience : Nat) (left right : List α) :
    Except ε (List α × Nat) :=
  if left.length ≤ right.length then mergeForward less patience left right
  else mergeBackward less patience left right

theorem merge_perm {less : α → α → Except ε Bool} {patience patience' : Nat}
    {left right xs : List α} (h : merge less patience left right = .ok (xs, patience')) :
    xs.Perm (left ++ right) := by
  unfold merge at h
  split at h
  · exact mergeForward_perm h
  · exact mergeBackward_perm h

/-- Join two neighbouring runs.  Items of the left run that come before the right one, and items
of the right run that come after the left one, stay where they are. -/
def join (less : α → α → Except ε Bool) (patience : Nat) (left right : List α) :
    Except ε (List α × Nat) :=
  match right.head? with
  | none => .ok (left ++ right, patience)
  | some first => do
    let start ← boundary (negated (less first)) left 0
    match (left.drop start).getLast? with
    | none => return (left ++ right, patience)
    | some last =>
      let stop ← boundary (fun y => less y last) right (right.length - 1)
      if (right.take stop).isEmpty then return (left ++ right, patience)
      let (middle, patience) ← merge less patience (left.drop start) (right.take stop)
      return (left.take start ++ middle ++ right.drop stop, patience)

/-- Joining runs loses and adds nothing. -/
theorem join_perm {less : α → α → Except ε Bool} {patience patience' : Nat}
    {left right xs : List α} (h : join less patience left right = .ok (xs, patience')) :
    xs.Perm (left ++ right) := by
  unfold join at h
  split at h
  · cases h
    exact .refl _
  · obtain ⟨start, -, h⟩ := bind_eq_ok.mp h
    split at h
    · cases pure_eq_ok.mp h
      exact .refl _
    · obtain ⟨stop, -, h⟩ := bind_eq_ok.mp h
      split at h
      · cases pure_eq_ok.mp h
        exact .refl _
      · obtain ⟨⟨middle, p⟩, hmerge, h⟩ := bind_eq_ok.mp h
        cases pure_eq_ok.mp h
        have hmiddle := (merge_perm hmerge).append_right (right.drop stop)
        rw [List.append_assoc, List.take_append_drop] at hmiddle
        have hall := hmiddle.append_left (left.take start)
        rwa [← List.append_assoc, ← List.append_assoc, List.take_append_drop] at hall

end Liveness.Sorting
