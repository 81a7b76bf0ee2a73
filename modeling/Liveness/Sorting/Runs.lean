/-
Liveness/Sorting/Runs.lean

Stable sorting by runs.  The list is cut into runs that rise already, or fall
and are turned round; a run that is too short takes in the items after it.  Runs
wait on a pile and are joined so that those of like weight meet.

The comparison may fail, and it need not be an order.  On an order this is a
stable sort like any other; otherwise the outcome, and whether a comparison that
fails is made at all, depend on which pairs are compared, and it is this sort
that says which.  In every case nothing is lost and nothing added (`byRuns_perm`).
-/
import Liveness.Sorting.Merge

namespace Liveness.Sorting

variable {α ε : Type}

/-! ### Runs -/

/-- The items after `last` that go on falling, or go on not falling, and the rest. -/
def follow (less : α → α → Except ε Bool) (falling : Bool) (last : α) :
    List α → Except ε (List α × List α)
  | [] => .ok ([], [])
  | x :: xs => do
    if (← less x last) == falling then
      let (more, rest) ← follow less falling x xs
      return (x :: more, rest)
    else return ([], x :: xs)

theorem append_of_follow {less : α → α → Except ε Bool} {falling : Bool} {last : α}
    {xs more rest : List α} (h : follow less falling last xs = .ok (more, rest)) :
    more ++ rest = xs := by
  induction xs generalizing last more rest with
  | nil =>
    cases h
    rfl
  | cons x xs ih =>
    obtain ⟨answer, -, h⟩ := bind_eq_ok.mp h
    split at h
    · obtain ⟨⟨more', rest'⟩, hfollow, h⟩ := bind_eq_ok.mp h
      cases pure_eq_ok.mp h
      rw [List.cons_append, ih hfollow]
    · cases pure_eq_ok.mp h
      rfl

/-- The first run of a list, turned round if it falls, and the rest. -/
def firstRun (less : α → α → Except ε Bool) : List α → Except ε (List α × List α)
  | x :: y :: xs => do
    let falling ← less y x
    let (more, rest) ← follow less falling y xs
    let run := x :: y :: more
    return (if falling then run.reverse else run, rest)
  | xs => .ok (xs, [])

theorem firstRun_perm {less : α → α → Except ε Bool} {xs run rest : List α}
    (h : firstRun less xs = .ok (run, rest)) : (run ++ rest).Perm xs := by
  unfold firstRun at h
  split at h
  · rename_i x y ys
    obtain ⟨falling, -, h⟩ := bind_eq_ok.mp h
    obtain ⟨⟨more, rest'⟩, hfollow, h⟩ := bind_eq_ok.mp h
    cases pure_eq_ok.mp h
    have hall : (x :: y :: more) ++ rest = x :: y :: ys := by
      rw [List.cons_append, List.cons_append, append_of_follow hfollow]
    cases falling
    · exact hall ▸ .refl _
    · exact hall ▸ (List.reverse_perm _).append_right rest
  · cases h
    rw [List.append_nil]

/-- Put an item into a run, behind those that it is not below. -/
def insertInto (less : α → α → Except ε Bool) (run : List α) (x : α) : Except ε (List α) := do
  let place ← halve (negated (less x)) run 0 run.length
  return run.take place ++ x :: run.drop place

theorem insertInto_perm {less : α → α → Except ε Bool} {run ys : List α} {x : α}
    (h : insertInto less run x = .ok ys) : ys.Perm (run ++ [x]) := by
  obtain ⟨place, -, h⟩ := bind_eq_ok.mp h
  cases pure_eq_ok.mp h
  have hx : (run.take place ++ x :: run.drop place).Perm (x :: (run.take place ++ run.drop place)) :=
    List.perm_middle
  rw [List.take_append_drop] at hx
  exact hx.trans (List.perm_append_singleton x run).symm

theorem foldlM_insertInto_perm {less : α → α → Except ε Bool} {xs run ys : List α}
    (h : xs.foldlM (insertInto less) run = .ok ys) : ys.Perm (run ++ xs) := by
  induction xs generalizing run with
  | nil =>
    cases pure_eq_ok.mp h
    rw [List.append_nil]
  | cons x xs ih =>
    rw [List.foldlM_cons] at h
    obtain ⟨run', hinsert, h⟩ := bind_eq_ok.mp h
    have hrun := (insertInto_perm hinsert).append_right xs
    rw [List.append_assoc] at hrun
    exact (ih h).trans hrun

/-- The length that runs are brought to in a list of `n` items: all of a short list, and else
the leading six binary digits of `n`, one more if a digit after them is set, which `carry`
remembers. -/
def runLength (n carry : Nat) : Nat :=
  if n < 64 then n + carry else runLength (n / 2) (max carry (n % 2))

/-- The next run of a list, brought to a length if the list is long enough, and the rest. -/
def nextRun (less : α → α → Except ε Bool) (length : Nat) (xs : List α) :
    Except ε (List α × List α) := do
  let (run, rest) ← firstRun less xs
  let missing := length - run.length
  return (← (rest.take missing).foldlM (insertInto less) run, rest.drop missing)

theorem nextRun_perm {less : α → α → Except ε Bool} {length : Nat} {xs run rest : List α}
    (h : nextRun less length xs = .ok (run, rest)) : (run ++ rest).Perm xs := by
  obtain ⟨⟨run', rest'⟩, hfirst, h⟩ := bind_eq_ok.mp h
  obtain ⟨run'', hinsert, h⟩ := bind_eq_ok.mp h
  cases pure_eq_ok.mp h
  have hrun := (foldlM_insertInto_perm hinsert).append_right (rest'.drop (length - run'.length))
  rw [List.append_assoc, List.take_append_drop] at hrun
  exact hrun.trans (firstRun_perm hfirst)

/-! ### The pile -/

/-- A run on the pile: where it starts, and the power of the border to the run above it. -/
structure Run (α : Type) where
  items : List α
  start : Nat
  power : Nat := 0

/-- All items of a pile, in some order. -/
def pileItems (pile : List (Run α)) : List α :=
  pile.flatMap (·.items)

/-- The number of halvings of a list of `n` items that part two places, given doubled. -/
def halvings (n : Nat) : (digits : Nat) → (a b : Nat) → Nat
  | 0, _, _ => 0
  | digits + 1, a, b =>
    if n ≤ a then 1 + halvings n digits (2 * (a - n)) (2 * (b - n))
    else if n ≤ b then 1
    else 1 + halvings n digits (2 * a) (2 * b)

/-- The power of the border between a run and the next one in a list of `n` items: how often the
list is halved until a cut parts the middles of the two. -/
def Run.borderPower (n : Nat) (run : Run α) (next : Nat) : Nat :=
  let a := 2 * run.start + run.items.length
  halvings n (n.log2 + 2) a (a + run.items.length + next)

/-- Join runs on the top of the pile as long as the border between them has a higher power. -/
def joinAbove (less : α → α → Except ε Bool) (power : Nat) :
    (pile : List (Run α)) → (patience : Nat) → Except ε (List (Run α) × Nat)
  | top :: below :: pile, patience =>
    if power < below.power then do
      let (items, patience) ← join less patience below.items top.items
      joinAbove less power ({ below with items } :: pile) patience
    else .ok (top :: below :: pile, patience)
  | pile, patience => .ok (pile, patience)
termination_by pile => pile.length

theorem joinAbove_perm {less : α → α → Except ε Bool} {power : Nat} {pile pile' : List (Run α)}
    {patience patience' : Nat} (h : joinAbove less power pile patience = .ok (pile', patience')) :
    (pileItems pile').Perm (pileItems pile) := by
  fun_induction joinAbove less power pile patience with
  | case1 top below pile patience hlt ih =>
    obtain ⟨⟨items, p⟩, hjoin, h⟩ := bind_eq_ok.mp h
    refine (ih items p h).trans ?_
    have hitems := ((join_perm hjoin).trans List.perm_append_comm).append_right (pileItems pile)
    simpa [pileItems, List.append_assoc] using hitems
  | case2 =>
    cases h
    exact .refl _
  | case3 =>
    cases h
    exact .refl _

/-- Put a run on the pile of a list of `n` items. -/
def pushRun (less : α → α → Except ε Bool) (n : Nat) (pile : List (Run α)) (patience : Nat)
    (run : Run α) : Except ε (List (Run α) × Nat) :=
  match pile with
  | [] => .ok ([run], patience)
  | top :: _ => do
    let power := top.borderPower n run.items.length
    match ← joinAbove less power pile patience with
    | (top :: pile, patience) => return (run :: { top with power } :: pile, patience)
    | ([], patience) => return ([run], patience)

theorem pushRun_perm {less : α → α → Except ε Bool} {n : Nat} {pile pile' : List (Run α)}
    {patience patience' : Nat} {run : Run α}
    (h : pushRun less n pile patience run = .ok (pile', patience')) :
    (pileItems pile').Perm (run.items ++ pileItems pile) := by
  unfold pushRun at h
  split at h
  · cases h
    exact .refl _
  · obtain ⟨⟨joined, p⟩, hjoin, h⟩ := bind_eq_ok.mp h
    have hpile := (joinAbove_perm hjoin).append_left run.items
    cases joined with
    | nil =>
      cases pure_eq_ok.mp h
      exact hpile
    | cons top joined =>
      cases pure_eq_ok.mp h
      exact hpile

/-- Join all runs of a pile, a run in the middle first with the smaller of its neighbours. -/
def joinAll (less : α → α → Except ε Bool) :
    (pile : List (Run α)) → (patience : Nat) → Except ε (List α)
  | [], _ => .ok []
  | [run], _ => .ok run.items
  | [top, below], patience => do
    let (items, _) ← join less patience below.items top.items
    return items
  | top :: middle :: below :: pile, patience => do
    if below.items.length < top.items.length then
      let (items, patience) ← join less patience below.items middle.items
      joinAll less (top :: { below with items } :: pile) patience
    else
      let (items, patience) ← join less patience middle.items top.items
      joinAll less ({ middle with items } :: below :: pile) patience
termination_by pile => pile.length

theorem joinAll_perm {less : α → α → Except ε Bool} {pile : List (Run α)} {patience : Nat}
    {xs : List α} (h : joinAll less pile patience = .ok xs) : xs.Perm (pileItems pile) := by
  fun_induction joinAll less pile patience with
  | case1 =>
    cases h
    exact .refl _
  | case2 =>
    cases h
    simp [pileItems]
  | case3 top below patience =>
    obtain ⟨⟨items, p⟩, hjoin, h⟩ := bind_eq_ok.mp h
    cases pure_eq_ok.mp h
    simpa [pileItems] using (join_perm hjoin).trans List.perm_append_comm
  | case4 top middle below pile patience hlt ih =>
    obtain ⟨⟨items, p⟩, hjoin, h⟩ := bind_eq_ok.mp h
    refine (ih items p h).trans ?_
    have hitems := ((join_perm hjoin).trans List.perm_append_comm).append_right (pileItems pile)
    simpa [pileItems, List.append_assoc] using hitems.append_left top.items
  | case5 top middle below pile patience hlt ih =>
    obtain ⟨⟨items, p⟩, hjoin, h⟩ := bind_eq_ok.mp h
    refine (ih items p h).trans ?_
    have hitems := ((join_perm hjoin).trans List.perm_append_comm).append_right
      (below.items ++ pileItems pile)
    simpa [pileItems, List.append_assoc] using hitems

/-- Cut the rest of a list of `n` items into runs and join them.  Each run takes an item at
least, so as many turns as there are items are enough. -/
def joinRuns (less : α → α → Except ε Bool) (n : Nat) :
    (turns : Nat) → (pile : List (Run α)) → (patience : Nat) → (rest : List α) →
    Except ε (List α)
  | _, pile, patience, [] => joinAll less pile patience
  | 0, pile, patience, rest => do
    return (← joinAll less pile patience) ++ rest
  | turns + 1, pile, patience, rest => do
    let (items, after) ← nextRun less (runLength n 0) rest
    let (pile, patience) ← pushRun less n pile patience { items, start := n - rest.length }
    joinRuns less n turns pile patience after

theorem joinRuns_perm {less : α → α → Except ε Bool} {n turns : Nat} {pile : List (Run α)}
    {patience : Nat} {rest xs : List α} (h : joinRuns less n turns pile patience rest = .ok xs) :
    xs.Perm (pileItems pile ++ rest) := by
  fun_induction joinRuns less n turns pile patience rest with
  | case1 turns pile patience =>
    rw [List.append_nil]
    exact joinAll_perm h
  | case2 pile patience rest hrest =>
    obtain ⟨ys, hall, h⟩ := bind_eq_ok.mp h
    cases pure_eq_ok.mp h
    exact (joinAll_perm hall).append_right rest
  | case3 turns pile patience rest hrest ih =>
    obtain ⟨⟨items, after⟩, hrun, h⟩ := bind_eq_ok.mp h
    obtain ⟨⟨pile', p⟩, hpush, h⟩ := bind_eq_ok.mp h
    refine (ih after pile' p h).trans (((pushRun_perm hpush).append_right after).trans ?_)
    have hitems := (nextRun_perm hrun).append_left (pileItems pile)
    refine List.Perm.trans ?_ hitems
    rw [← List.append_assoc]
    exact List.perm_append_comm.append_right after

/-- Sort a list by a comparison that may fail, equal items in the order in which they came. -/
def byRuns (less : α → α → Except ε Bool) (xs : List α) : Except ε (List α) :=
  joinRuns less xs.length xs.length [] Merging.startPatience xs

/-- Sorting by runs loses and adds nothing, whatever the comparison says. -/
theorem byRuns_perm {less : α → α → Except ε Bool} {xs ys : List α}
    (h : byRuns less xs = .ok ys) : ys.Perm xs :=
  joinRuns_perm h

end Liveness.Sorting
