/-
Liveness/Proofs/SortFailures.lean

Why a sort fails.  A sort whose comparison may fail asks about pairs of its items
and about nothing else, so it fails only with an error of such a pair
(`Sorting.byRuns_error`).  Which pair that is depends on the items; that it is one
of them does not.

`FailsBy P x` says that a computation fails with errors in `P` only.  It goes
through every step of a computation, and so through every function of the sort in
the order in which they call each other.
-/
import Liveness.Sorting.Runs

namespace Liveness

/-! ### Computations that fail in known ways -/

/-- A computation fails with errors in `P` only. -/
def FailsBy {ε α : Type} (P : ε → Prop) (x : Except ε α) : Prop :=
  ∀ e, x = .error e → P e

section FailsBy

variable {ε α β : Type} {P : ε → Prop}

theorem failsBy_ok (a : α) : FailsBy P (.ok a) := by
  intro e h
  cases h

theorem failsBy_pure (a : α) : FailsBy P (pure a : Except ε α) :=
  failsBy_ok a

theorem failsBy_error {e : ε} (h : P e) : FailsBy P (.error e : Except ε α) := by
  intro e' he
  cases he
  exact h

theorem FailsBy.bind {x : Except ε α} {f : α → Except ε β} (hx : FailsBy P x)
    (hf : ∀ a, x = .ok a → FailsBy P (f a)) : FailsBy P (x >>= f) := by
  rcases x with e | a
  · exact failsBy_error (hx e rfl)
  · exact hf a rfl

theorem FailsBy.map {x : Except ε α} (hx : FailsBy P x) (f : α → β) : FailsBy P (f <$> x) := by
  rcases x with e | a
  · exact failsBy_error (hx e rfl)
  · exact failsBy_ok (f a)

theorem failsBy_mapM {f : α → Except ε β} {xs : List α} (h : ∀ x ∈ xs, FailsBy P (f x)) :
    FailsBy P (xs.mapM f) := by
  induction xs with
  | nil => exact failsBy_pure []
  | cons x xs ih =>
    rw [List.mapM_cons]
    refine (h x List.mem_cons_self).bind fun b _ => ?_
    refine (ih fun y hy => h y (List.mem_cons_of_mem x hy)).bind fun bs _ => ?_
    exact failsBy_pure (b :: bs)

end FailsBy

namespace Sorting

variable {α ε : Type} {P : ε → Prop}

/-! ### Searching -/

section Search

variable {ask : α → Except ε Bool} {xs : List α}

theorem failsBy_negated {x : α} (h : FailsBy P (ask x)) : FailsBy P (negated ask x) :=
  h.map not

theorem failsBy_askAt (h : ∀ x ∈ xs, FailsBy P (ask x)) (place : Nat) :
    FailsBy P (askAt ask xs place) := by
  rw [askAt]
  split
  · next x hx => exact h x (List.mem_of_getElem? hx)
  · exact failsBy_ok false

theorem failsBy_halve (h : ∀ x ∈ xs, FailsBy P (ask x)) (low high : Nat) :
    FailsBy P (halve ask xs low high) := by
  fun_induction halve ask xs low high with
  | case1 low high _ middle ihhigh ihlow =>
    refine (failsBy_askAt h middle).bind fun answer _ => ?_
    split
    · exact ihhigh
    · exact ihlow
  | case2 low high _ => exact failsBy_ok low

theorem failsBy_stride {ask : Nat → Except ε Bool} (h : ∀ d, FailsBy P (ask d))
    (limit last distance : Nat) : FailsBy P (stride ask limit last distance) := by
  fun_induction stride ask limit last distance with
  | case1 last distance _ ih =>
    refine (h distance).bind fun answer _ => ?_
    split
    · exact ih
    · exact failsBy_ok _
  | case2 last distance _ => exact failsBy_ok _

theorem failsBy_boundary (h : ∀ x ∈ xs, FailsBy P (ask x)) (hint : Nat) :
    FailsBy P (boundary ask xs hint) := by
  rw [boundary]
  refine (failsBy_askAt h hint).bind fun answer _ => ?_
  split
  · refine (failsBy_stride (fun d => failsBy_askAt h _) _ _ _).bind fun found _ => ?_
    exact failsBy_halve h _ _
  · refine (failsBy_stride (fun d => (failsBy_askAt h _).map not) _ _ _).bind fun found _ => ?_
    exact failsBy_halve h _ _

theorem failsBy_leading (h : ∀ x ∈ xs, FailsBy P (ask x)) (direction : Direction) :
    FailsBy P (leading direction ask xs) := by
  rw [leading.eq_def]
  split
  · exact failsBy_boundary h 0
  · have hreverse : ∀ x ∈ xs.reverse, FailsBy P (negated ask x) := fun x hx =>
      failsBy_negated (h x (List.mem_reverse.mp hx))
    refine (failsBy_boundary hreverse _).bind fun rest _ => ?_
    exact failsBy_pure _

end Search

/-! ### Merging -/

section Merge

variable {S : α → Prop}

namespace Merging

variable {m : Merging α} {rightFirst : α → α → Except ε Bool}

/-- A step of a merge asks about items of its two runs. -/
theorem failsBy_step (hasks : ∀ x y, S x → S y → FailsBy P (rightFirst x y))
    (hitems : ∀ x ∈ m.items, S x) (direction : Direction) (pace : Pace) :
    FailsBy P (m.step direction rightFirst pace) := by
  have hleft : ∀ x ∈ m.left, S x := fun x hx =>
    hitems x (List.mem_append_left _ (List.mem_append_right _ hx))
  have hright : ∀ y ∈ m.right, S y := fun y hy => hitems y (List.mem_append_right _ hy)
  unfold step
  split
  · next x xs y ys hx hy =>
    have hSx : S x := hleft x (by rw [hx]; exact List.mem_cons_self)
    have hSy : S y := hright y (by rw [hy]; exact List.mem_cons_self)
    split
    · refine (hasks x y hSx hSy).bind fun answer _ => ?_
      split <;> exact failsBy_pure _
    · have hsearch : ∀ x ∈ m.left, FailsBy P (negated (fun x => rightFirst x y) x) :=
        fun x hx => failsBy_negated (hasks x y (hleft x hx) hSy)
      refine (failsBy_leading hsearch direction).bind fun run _ => ?_
      dsimp only
      split <;> exact failsBy_pure _
    · have hsearch : ∀ y ∈ m.right, FailsBy P (rightFirst x y) :=
        fun y hy => hasks x y hSx (hright y hy)
      refine (failsBy_leading hsearch direction).bind fun run _ => ?_
      dsimp only
      split
      · exact failsBy_pure _
      · split
        · exact failsBy_pure _
        · split <;> exact failsBy_pure _
  · exact failsBy_ok _

theorem failsBy_finish (hasks : ∀ x y, S x → S y → FailsBy P (rightFirst x y))
    (hitems : ∀ x ∈ m.items, S x) (direction : Direction) (steps : Nat) (pace : Pace) :
    FailsBy P (m.finish direction rightFirst steps pace) := by
  induction steps generalizing m pace with
  | zero => exact failsBy_ok _
  | succ steps ih =>
    rw [finish]
    split
    · exact failsBy_ok _
    · refine (failsBy_step hasks hitems direction pace).bind fun next hnext => ?_
      obtain ⟨pace', m'⟩ := next
      exact ih (fun x hx => hitems x ((step_perm hnext).mem_iff.mp hx)) pace'

end Merging

variable {less : α → α → Except ε Bool} {left right : List α}

theorem failsBy_merge (hless : ∀ x y, S x → S y → FailsBy P (less x y))
    (hleft : ∀ x ∈ left, S x) (hright : ∀ x ∈ right, S x) (patience : Nat) :
    FailsBy P (merge less patience left right) := by
  have hitems : ∀ x ∈ left ++ right, S x := fun x hx =>
    (List.mem_append.mp hx).elim (hleft x) (hright x)
  rw [merge]
  split
  · refine Merging.failsBy_finish (fun x y hx hy => hless y x hy hx) (fun x hx => hitems x ?_) _ _ _
    exact (Merging.moveRight_perm _ 1).mem_iff.mp hx
  · rw [mergeBackward]
    refine FailsBy.bind ?_ fun _ _ => failsBy_pure _
    refine Merging.failsBy_finish (fun x y hx hy => failsBy_negated (hless y x hy hx))
      (fun x hx => hitems x ?_) _ _ _
    have hmem := (Merging.moveLeft_perm _ 1).mem_iff.mp hx
    simpa [Merging.items] using hmem

theorem failsBy_join (hless : ∀ x y, S x → S y → FailsBy P (less x y))
    (hleft : ∀ x ∈ left, S x) (hright : ∀ x ∈ right, S x) (patience : Nat) :
    FailsBy P (join less patience left right) := by
  rw [join]
  split
  · exact failsBy_ok _
  · next first hfirst =>
    have hSfirst : S first := hright first (List.mem_of_head? hfirst)
    refine (failsBy_boundary (fun x hx =>
      failsBy_negated (hless first x hSfirst (hleft x hx))) 0).bind fun start _ => ?_
    split
    · exact failsBy_pure _
    · next last hlast =>
      have hSlast : S last := hleft last (List.mem_of_mem_drop (List.mem_of_getLast? hlast))
      refine (failsBy_boundary (fun y hy => hless y last (hright y hy) hSlast) _).bind
        fun stop _ => ?_
      split
      · exact failsBy_pure _
      · refine (failsBy_merge hless (fun x hx => hleft x (List.mem_of_mem_drop hx))
          (fun x hx => hright x (List.mem_of_mem_take hx)) patience).bind fun merged _ => ?_
        exact failsBy_pure _

end Merge

/-! ### Runs -/

section Runs

variable {S : α → Prop} {less : α → α → Except ε Bool}

theorem failsBy_follow (hless : ∀ x y, S x → S y → FailsBy P (less x y)) (falling : Bool)
    {last : α} (hlast : S last) {xs : List α} (hxs : ∀ x ∈ xs, S x) :
    FailsBy P (follow less falling last xs) := by
  induction xs generalizing last with
  | nil => exact failsBy_ok _
  | cons x xs ih =>
    have hx : S x := hxs x List.mem_cons_self
    rw [follow]
    refine (hless x last hx hlast).bind fun answer _ => ?_
    split
    · refine (ih hx fun y hy => hxs y (List.mem_cons_of_mem x hy)).bind fun found _ => ?_
      exact failsBy_pure _
    · exact failsBy_pure _

theorem failsBy_firstRun (hless : ∀ x y, S x → S y → FailsBy P (less x y)) {xs : List α}
    (hxs : ∀ x ∈ xs, S x) : FailsBy P (firstRun less xs) := by
  unfold firstRun
  split
  · next x y ys =>
    have hx : S x := hxs x List.mem_cons_self
    have hy : S y := hxs y (List.mem_cons_of_mem x List.mem_cons_self)
    refine (hless y x hy hx).bind fun falling _ => ?_
    have hys : ∀ z ∈ ys, S z := fun z hz =>
      hxs z (List.mem_cons_of_mem x (List.mem_cons_of_mem y hz))
    refine (failsBy_follow hless falling hy hys).bind fun found _ => ?_
    exact failsBy_pure _
  · exact failsBy_ok _

theorem failsBy_insertInto (hless : ∀ x y, S x → S y → FailsBy P (less x y)) {run : List α}
    (hrun : ∀ x ∈ run, S x) {x : α} (hx : S x) : FailsBy P (insertInto less run x) := by
  rw [insertInto]
  refine (failsBy_halve (fun y hy => failsBy_negated (hless x y hx (hrun y hy))) _ _).bind
    fun place _ => ?_
  exact failsBy_pure _

theorem failsBy_foldlM_insertInto (hless : ∀ x y, S x → S y → FailsBy P (less x y))
    {xs run : List α} (hrun : ∀ x ∈ run, S x) (hxs : ∀ x ∈ xs, S x) :
    FailsBy P (xs.foldlM (insertInto less) run) := by
  induction xs generalizing run with
  | nil => exact failsBy_pure _
  | cons x xs ih =>
    have hx : S x := hxs x List.mem_cons_self
    rw [List.foldlM_cons]
    refine (failsBy_insertInto hless hrun hx).bind fun run' hrun' => ?_
    refine ih (fun y hy => ?_) fun y hy => hxs y (List.mem_cons_of_mem x hy)
    rcases List.mem_append.mp ((insertInto_perm hrun').mem_iff.mp hy) with hy | hy
    · exact hrun y hy
    · rw [List.mem_singleton.mp hy]
      exact hx

theorem failsBy_nextRun (hless : ∀ x y, S x → S y → FailsBy P (less x y)) (length : Nat)
    {xs : List α} (hxs : ∀ x ∈ xs, S x) : FailsBy P (nextRun less length xs) := by
  rw [nextRun]
  refine (failsBy_firstRun hless hxs).bind fun first hfirst => ?_
  obtain ⟨run, rest⟩ := first
  have hall : ∀ x ∈ run ++ rest, S x := fun x hx => hxs x ((firstRun_perm hfirst).mem_iff.mp hx)
  refine (failsBy_foldlM_insertInto hless (fun x hx => hall x (List.mem_append_left _ hx))
    fun x hx => hall x (List.mem_append_right _ (List.mem_of_mem_take hx))).bind fun longer _ => ?_
  exact failsBy_pure _

/-- All items of a pile are in `S`. -/
theorem items_of_pile {pile : List (Run α)} (h : ∀ x ∈ pileItems pile, S x) {run : Run α}
    (hrun : run ∈ pile) : ∀ x ∈ run.items, S x := fun x hx =>
  h x (List.mem_flatMap.mpr ⟨run, hrun, hx⟩)

theorem failsBy_joinAbove (hless : ∀ x y, S x → S y → FailsBy P (less x y)) {power : Nat}
    {pile : List (Run α)} {patience : Nat} (hpile : ∀ x ∈ pileItems pile, S x) :
    FailsBy P (joinAbove less power pile patience) := by
  fun_induction joinAbove less power pile patience with
  | case1 top below pile patience _ ih =>
    have htop := items_of_pile hpile List.mem_cons_self
    have hbelow := items_of_pile hpile (List.mem_cons_of_mem _ List.mem_cons_self)
    refine (failsBy_join hless hbelow htop patience).bind fun joined hjoined => ?_
    obtain ⟨items, patience'⟩ := joined
    refine ih items patience' fun x hx => ?_
    rcases List.mem_append.mp hx with hx | hx
    · exact (List.mem_append.mp ((join_perm hjoined).mem_iff.mp hx)).elim (hbelow x) (htop x)
    · exact hpile x (List.mem_append_right _ (List.mem_append_right _ hx))
  | case2 => exact failsBy_ok _
  | case3 => exact failsBy_ok _

theorem failsBy_pushRun (hless : ∀ x y, S x → S y → FailsBy P (less x y)) {n : Nat}
    {pile : List (Run α)} {patience : Nat} {run : Run α} (hpile : ∀ x ∈ pileItems pile, S x) :
    FailsBy P (pushRun less n pile patience run) := by
  unfold pushRun
  split
  · exact failsBy_ok _
  · refine (failsBy_joinAbove hless hpile).bind fun joined _ => ?_
    split <;> exact failsBy_pure _

theorem failsBy_joinAll (hless : ∀ x y, S x → S y → FailsBy P (less x y))
    {pile : List (Run α)} {patience : Nat} (hpile : ∀ x ∈ pileItems pile, S x) :
    FailsBy P (joinAll less pile patience) := by
  fun_induction joinAll less pile patience with
  | case1 => exact failsBy_ok _
  | case2 => exact failsBy_ok _
  | case3 top below patience =>
    have htop := items_of_pile hpile List.mem_cons_self
    have hbelow := items_of_pile hpile (List.mem_cons_of_mem _ List.mem_cons_self)
    refine (failsBy_join hless hbelow htop patience).bind fun joined _ => ?_
    exact failsBy_pure _
  | case4 top middle below pile patience _ ih =>
    have hmiddle := items_of_pile hpile (List.mem_cons_of_mem _ List.mem_cons_self)
    have hbelow := items_of_pile hpile
      (List.mem_cons_of_mem _ (List.mem_cons_of_mem _ List.mem_cons_self))
    refine (failsBy_join hless hbelow hmiddle patience).bind fun joined hjoined => ?_
    obtain ⟨items, patience'⟩ := joined
    refine ih items patience' fun x hx => ?_
    have hitems := (join_perm hjoined).mem_iff (a := x)
    simp only [pileItems, List.flatMap_cons, List.mem_append] at hx hpile hitems
    grind
  | case5 top middle below pile patience _ ih =>
    have htop := items_of_pile hpile List.mem_cons_self
    have hmiddle := items_of_pile hpile (List.mem_cons_of_mem _ List.mem_cons_self)
    refine (failsBy_join hless hmiddle htop patience).bind fun joined hjoined => ?_
    obtain ⟨items, patience'⟩ := joined
    refine ih items patience' fun x hx => ?_
    have hitems := (join_perm hjoined).mem_iff (a := x)
    simp only [pileItems, List.flatMap_cons, List.mem_append] at hx hpile hitems
    grind

theorem failsBy_joinRuns (hless : ∀ x y, S x → S y → FailsBy P (less x y)) {n turns : Nat}
    {pile : List (Run α)} {patience : Nat} {rest : List α} (hpile : ∀ x ∈ pileItems pile, S x)
    (hrest : ∀ x ∈ rest, S x) : FailsBy P (joinRuns less n turns pile patience rest) := by
  fun_induction joinRuns less n turns pile patience rest with
  | case1 => exact failsBy_joinAll hless hpile
  | case2 =>
    refine (failsBy_joinAll hless hpile).bind fun joined _ => ?_
    exact failsBy_pure _
  | case3 turns pile patience rest _ ih =>
    refine (failsBy_nextRun hless _ hrest).bind fun next hnext => ?_
    obtain ⟨items, after⟩ := next
    have hall : ∀ x ∈ items ++ after, S x := fun x hx => hrest x ((nextRun_perm hnext).mem_iff.mp hx)
    refine (failsBy_pushRun hless hpile).bind fun pushed hpushed => ?_
    obtain ⟨pile', patience'⟩ := pushed
    refine ih after pile' patience' (fun x hx => ?_) fun x hx => hall x (List.mem_append_right _ hx)
    rcases List.mem_append.mp ((pushRun_perm hpushed).mem_iff.mp hx) with hx | hx
    · exact hall x (List.mem_append_left _ hx)
    · exact hpile x hx

end Runs

/-- **A sort fails only by a comparison of two of its items.** -/
theorem byRuns_error {less : α → α → Except ε Bool} {xs : List α} {e : ε}
    (h : byRuns less xs = .error e) : ∃ x ∈ xs, ∃ y ∈ xs, less x y = .error e := by
  refine failsBy_joinRuns (S := (· ∈ xs))
    (P := fun e => ∃ x ∈ xs, ∃ y ∈ xs, less x y = .error e) ?_ ?_ ?_ e h
  · exact fun x y hx hy e he => ⟨x, hx, y, hy, he⟩
  · exact fun x hx => absurd hx List.not_mem_nil
  · exact fun x hx => hx

end Sorting

end Liveness
