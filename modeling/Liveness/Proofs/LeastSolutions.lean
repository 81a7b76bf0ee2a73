/-
Liveness/Proofs/LeastSolutions.lean

The solver finds the least solution.  Here the transfer of a node looks at its
exit set only and not at the number of sweeps (`Equations.steady`).

Three facts make up the result, and each of them needs less than the next.

* Whatever the transfers are, the sets that a run ends with satisfy the
  equations (`solve_isSolution`).
* If the transfers are monotone, these sets are below every solution
  (`solve_least`), so the order in which the nodes are listed does not matter.
* If moreover no transfer leads out of a finite set `U`, a run of enough sweeps
  ends (`iterate_returns`).  The entry sets only ever grow (`Rising`), so at most
  `n * |U|` sweeps can change one of them.  A sweep that changes none reads the
  same entry sets at every visit, so it leaves all nodes settled
  (`settledAt_of_same_entries`) and the sweep after it changes nothing at all:
  these are the two sweeps on top.
-/
import Liveness.Proofs.Sweeps
import Mathlib.Algebra.Order.BigOperators.Group.Finset
import Mathlib.Data.Finset.Card

namespace Liveness

/-! ### Sets of names as finite sets -/

/-- The names of a set, with the sizes that finite sets have. -/
def NameSet.toFinset (s : NameSet) : Finset String :=
  s.toList.toFinset

@[simp] theorem NameSet.mem_toFinset {s : NameSet} {x : String} : x ∈ s.toFinset ↔ x ∈ s :=
  List.mem_toFinset

variable {ν : Type} [DecidableEq ν]

/-! ### Solutions -/

/-- Sets for the nodes that satisfy the equations.  A successor that is no node has no names. -/
structure IsSolution (nodes : List ν) (successors : ν → List ν)
    (transfer : ν → NameSet → NameSet) (entry exit : ν → NameSet) : Prop where
  exit_iff : ∀ node ∈ nodes, ∀ x,
    x ∈ exit node ↔ ∃ next ∈ successors node, next ∈ nodes ∧ x ∈ entry next
  entry_eq : ∀ node ∈ nodes, entry node = transfer node (exit node)

omit [DecidableEq ν] in
/-- Only the members of the list of nodes matter. -/
theorem IsSolution.congr {nodes nodes' : List ν} {successors : ν → List ν}
    {transfer : ν → NameSet → NameSet} {entry exit : ν → NameSet}
    (h : IsSolution nodes successors transfer entry exit)
    (hnodes : ∀ node, node ∈ nodes' ↔ node ∈ nodes) :
    IsSolution nodes' successors transfer entry exit where
  exit_iff node hnode x := by
    simp only [hnodes]
    exact h.exit_iff node ((hnodes node).mp hnode) x
  entry_eq node hnode := h.entry_eq node ((hnodes node).mp hnode)

namespace Equations

/-- Equations whose transfers look at the exit set of a node and at nothing else. -/
def steady (nodes : List ν) (successors : ν → List ν) (transfer : ν → NameSet → NameSet) :
    Equations ν where
  nodes := nodes
  successors := successors
  transfer := fun _ => transfer

section Steady

variable {nodes : List ν} {successors : ν → List ν} {transfer : ν → NameSet → NameSet}

/-- The nodes are the keys of both tables. -/
theorem solve_keys_iff {cap : Int} {sol : Solution ν}
    (hrun : (steady nodes successors transfer).solve cap = .ok sol) (node : ν) :
    (node ∈ sol.facts.entry.keys ↔ node ∈ nodes) ∧
      (node ∈ sol.facts.exit.keys ↔ node ∈ nodes) := by
  obtain ⟨hentry, hexit⟩ := solve_keys hrun
  rw [hentry, hexit]
  exact ⟨mem_order, mem_order⟩

/-- A run ends with a solution, whatever the transfers are. -/
theorem solve_isSolution {cap : Int} {sol : Solution ν}
    (hrun : (steady nodes successors transfer).solve cap = .ok sol) :
    IsSolution nodes successors transfer sol.facts.entry.get sol.facts.exit.get := by
  obtain ⟨last, hlast⟩ := solve_settled hrun
  constructor
  · intro node hnode x
    have hexit := (hlast node hnode).1
    rw [Table.get_of_get? hexit, mem_exitOf]
    refine exists_congr fun next => and_congr_right fun _ => ?_
    constructor
    · intro hx
      -- what is no key has no names, so `next` is a node
      have hkey : next ∈ sol.facts.entry.keys := by
        refine Classical.byContradiction fun hno => ?_
        rw [Table.get_of_not_mem_keys hno] at hx
        exact NameSet.not_mem_empty x hx
      exact ⟨(solve_keys_iff hrun next).1.mp hkey, hx⟩
    · exact fun hx => hx.2
  · intro node hnode
    obtain ⟨hexit, hentry⟩ := hlast node hnode
    rw [Table.get_of_get? hentry, Table.get_of_get? hexit]
    rfl

/-! ### Monotone transfers -/

/-- More names at the exit of a node give no fewer at its entry. -/
def MonotoneTransfer (nodes : List ν) (transfer : ν → NameSet → NameSet) : Prop :=
  ∀ node ∈ nodes, ∀ out out' : NameSet, (∀ x ∈ out, x ∈ out') →
    ∀ x ∈ transfer node out, x ∈ transfer node out'

/-- What a run ends with is below every solution. -/
theorem solve_least (hmono : MonotoneTransfer nodes transfer) {cap : Int} {sol : Solution ν}
    (hrun : (steady nodes successors transfer).solve cap = .ok sol) {entry exit : ν → NameSet}
    (h : IsSolution nodes successors transfer entry exit) {node : ν} (hnode : node ∈ nodes) :
    (∀ x ∈ sol.facts.entry.get node, x ∈ entry node) ∧
      ∀ x ∈ sol.facts.exit.get node, x ∈ exit node := by
  have hentry : ∀ m x, x ∈ sol.facts.entry.get m → m ∈ nodes ∧ x ∈ entry m := by
    intro m x hx
    refine solve_entry_sound (S := fun m x => m ∈ nodes ∧ x ∈ entry m) ?_ hrun hx
    intro sweeps m hm out hout x hx
    have hbelow : ∀ y ∈ out, y ∈ exit m := by
      intro y hy
      obtain ⟨next, hnext, hy⟩ := hout y hy
      exact (h.exit_iff m hm y).mpr ⟨next, hnext, hy⟩
    refine ⟨hm, ?_⟩
    rw [h.entry_eq m hm]
    exact hmono m hm out (exit m) hbelow x hx
  refine ⟨fun x hx => (hentry node x hx).2, fun x hx => ?_⟩
  obtain ⟨next, hnext, -, hx⟩ := ((solve_isSolution hrun).exit_iff node hnode x).mp hx
  exact (h.exit_iff node hnode x).mpr ⟨next, hnext, hentry next x hx⟩

/-- The least solution does not depend on how the nodes are listed. -/
theorem solve_get?_eq (hmono : MonotoneTransfer nodes transfer) {nodes' : List ν}
    (hnodes : ∀ node, node ∈ nodes' ↔ node ∈ nodes) {cap cap' : Int} {sol sol' : Solution ν}
    (hrun : (steady nodes successors transfer).solve cap = .ok sol)
    (hrun' : (steady nodes' successors transfer).solve cap' = .ok sol') (node : ν) :
    sol'.facts.entry.get? node = sol.facts.entry.get? node ∧
      sol'.facts.exit.get? node = sol.facts.exit.get? node := by
  have hmono' : MonotoneTransfer nodes' transfer := fun m hm => hmono m ((hnodes m).mp hm)
  have hsol := (solve_isSolution hrun).congr hnodes
  have hsol' := (solve_isSolution hrun').congr fun m => (hnodes m).symm
  have hkeys := solve_keys_iff hrun node
  have hkeys' := solve_keys_iff hrun' node
  -- each of the two is below the other
  constructor
  · refine Table.get?_congr (by rw [hkeys'.1, hkeys.1, hnodes]) fun hkey x => ?_
    have hnode' := hkeys'.1.mp hkey
    exact ⟨(solve_least hmono' hrun' hsol hnode').1 x,
      (solve_least hmono hrun hsol' ((hnodes node).mp hnode')).1 x⟩
  · refine Table.get?_congr (by rw [hkeys'.2, hkeys.2, hnodes]) fun hkey x => ?_
    have hnode' := hkeys'.2.mp hkey
    exact ⟨(solve_least hmono' hrun' hsol hnode').2 x,
      (solve_least hmono hrun hsol' ((hnodes node).mp hnode')).2 x⟩

/-! ### Entry sets only grow -/

/-- Entry sets that the equations would not take a name from. -/
def Rising (eqs : Equations ν) (facts : Assignment ν) : Prop :=
  ∀ node ∈ eqs.nodes, ∀ x ∈ facts.entry.get node,
    x ∈ eqs.transfer 0 node (eqs.exitOf facts node)

/-- No entry set of the first is larger than that of the second. -/
def Grows (facts facts' : Assignment ν) : Prop :=
  ∀ node, ∀ x ∈ facts.entry.get node, x ∈ facts'.entry.get node

theorem Grows.exitOf {eqs : Equations ν} {facts facts' : Assignment ν} (h : Grows facts facts')
    (node : ν) : ∀ x ∈ eqs.exitOf facts node, x ∈ eqs.exitOf facts' node := by
  intro x hx
  obtain ⟨next, hnext, hx⟩ := mem_exitOf.mp hx
  exact mem_exitOf.mpr ⟨next, hnext, h next x hx⟩

/-- A visit of rising sets adds names and takes none, and the sets go on rising. -/
theorem visit_rising (hmono : MonotoneTransfer nodes transfer) {facts : Assignment ν} {node : ν}
    (hnode : node ∈ nodes) (sweeps : Nat)
    (h : (steady nodes successors transfer).Rising facts) :
    Grows facts ((steady nodes successors transfer).visit sweeps facts node) ∧
      (steady nodes successors transfer).Rising
        ((steady nodes successors transfer).visit sweeps facts node) := by
  have hgrows : Grows facts ((steady nodes successors transfer).visit sweeps facts node) := by
    intro m x hx
    by_cases hm : m = node
    · subst hm
      rw [visit, Table.get_set_self]
      exact h m hnode x hx
    · rw [visit, Table.get_set_ne hm]
      exact hx
  refine ⟨hgrows, fun m hm x hx => ?_⟩
  -- before the visit the equations gave `x` at `m` already, from smaller exit sets
  have hbefore : x ∈ transfer m ((steady nodes successors transfer).exitOf facts m) := by
    by_cases hmn : m = node
    · subst hmn
      rw [visit, Table.get_set_self] at hx
      exact hx
    · rw [visit, Table.get_set_ne hmn] at hx
      exact h m hm x hx
  exact hmono m hm _ _ (hgrows.exitOf m) x hbefore

theorem sweep_rising (hmono : MonotoneTransfer nodes transfer) {facts : Assignment ν} (sweeps : Nat)
    (h : (steady nodes successors transfer).Rising facts) :
    Grows facts ((steady nodes successors transfer).sweep sweeps facts) ∧
      (steady nodes successors transfer).Rising
        ((steady nodes successors transfer).sweep sweeps facts) := by
  apply sweep_induction (P := fun now =>
    Grows facts now ∧ (steady nodes successors transfer).Rising now)
  · rintro now ⟨hgrows, hnow⟩ node hnode
    have hmem : node ∈ (steady nodes successors transfer).nodes := mem_order.mp hnode
    obtain ⟨hgrows', hnow'⟩ := visit_rising hmono hmem sweeps hnow
    exact ⟨fun m x hx => hgrows' m x (hgrows m x hx), hnow'⟩
  · exact ⟨fun _ _ hx => hx, h⟩

theorem rising_start (eqs : Equations ν) : eqs.Rising eqs.start := by
  intro node _ x hx
  rw [start, Table.get_blank] at hx
  exact absurd hx (NameSet.not_mem_empty x)

end Steady

/-! ### Sweeps that change no entry set -/

section Settling

variable {eqs : Equations ν}

/-- Exit sets are read off the entry sets. -/
theorem exitOf_congr (eqs : Equations ν) {facts facts' : Assignment ν}
    (h : ∀ node, facts'.entry.get node = facts.entry.get node) (node : ν) :
    eqs.exitOf facts' node = eqs.exitOf facts node := by
  ext x
  simp only [mem_exitOf, h]

/-- If visits of different nodes leave all entry sets as they are, every visited node is settled
afterwards: all visits have read the same entry sets. -/
theorem settledAt_of_same_entries {sweeps : Nat} {nodes : List ν} {facts : Assignment ν}
    (hn : nodes.Nodup)
    (h : ∀ m, (nodes.foldl (eqs.visit sweeps) facts).entry.get m = facts.entry.get m) :
    ∀ node ∈ nodes, eqs.SettledAt sweeps (nodes.foldl (eqs.visit sweeps) facts) node := by
  induction nodes generalizing facts with
  | nil =>
    intro node hm
    cases hm
  | cons first rest ih =>
    obtain ⟨hfirst, hrest⟩ := List.nodup_cons.mp hn
    rw [List.foldl_cons] at h ⊢
    -- no later visit of the sweep touches what the first one writes
    have hlater : _ ∧ (rest.foldl (eqs.visit sweeps) (eqs.visit sweeps facts first)).exit.get? first
        = (eqs.visit sweeps facts first).exit.get? first :=
      foldl_visit_of_not_mem sweeps hfirst (eqs.visit sweeps facts first)
    obtain ⟨hentry, hexit⟩ := hlater
    have hwritten : (eqs.visit sweeps facts first).entry.get? first =
        some (eqs.transfer sweeps first (eqs.exitOf facts first)) := Table.get?_set_self _ _ _
    have hkept : ∀ m, (eqs.visit sweeps facts first).entry.get m = facts.entry.get m := by
      intro m
      by_cases hm : m = first
      · subst hm
        rw [← h m, Table.get_of_get? hwritten, Table.get_of_get? (hentry.trans hwritten)]
      · exact Table.get_set_ne hm _ _
    intro node hm
    rcases List.mem_cons.mp hm with rfl | hm
    · have hsame := exitOf_congr eqs h node
      refine ⟨?_, ?_⟩
      · rw [hexit, hsame]
        exact Table.get?_set_self _ _ _
      · rw [hentry, hwritten, hsame]
    · exact ih hrest (fun m => (h m).trans (hkept m).symm) node hm

/-- A sweep over settled nodes changes nothing. -/
theorem sweep_eq_self {sweeps : Nat} {facts : Assignment ν}
    (h : ∀ node ∈ eqs.order, eqs.SettledAt sweeps facts node) : eqs.sweep sweeps facts = facts := by
  apply sweep_induction (P := fun now => now = facts)
  · rintro now rfl node hnode
    exact visit_eq_self (h node hnode)
  · rfl

end Settling

/-! ### How many sweeps a run takes -/

section Bound

variable {nodes : List ν} {successors : ν → List ν} {transfer : ν → NameSet → NameSet}

/-- How many names the entry sets of some nodes hold altogether. -/
def total (nodes : List ν) (facts : Assignment ν) : Nat :=
  ∑ node ∈ nodes.toFinset, (facts.entry.get node).toFinset.card

theorem Grows.toFinset_subset {facts facts' : Assignment ν} (h : Grows facts facts') (node : ν) :
    (facts.entry.get node).toFinset ⊆ (facts'.entry.get node).toFinset := by
  intro x hx
  exact NameSet.mem_toFinset.mpr (h node x (NameSet.mem_toFinset.mp hx))

/-- Entry sets that have grown hold more names, or are what they were. -/
theorem Grows.total_lt {facts facts' : Assignment ν} (h : Grows facts facts')
    (hne : ∃ node ∈ nodes, facts'.entry.get node ≠ facts.entry.get node) :
    total nodes facts < total nodes facts' := by
  obtain ⟨node, hnode, hne⟩ := hne
  refine Finset.sum_lt_sum (fun m _ => Finset.card_le_card (h.toFinset_subset m))
    ⟨node, List.mem_toFinset.mpr hnode, Finset.card_lt_card ?_⟩
  refine (h.toFinset_subset node).ssubset_of_ne fun hsame => hne ?_
  ext x
  rw [← NameSet.mem_toFinset, ← NameSet.mem_toFinset, hsame]

/-- Entry sets inside `U` hold at most `n * |U|` names. -/
theorem total_le (nodes : List ν) {facts : Assignment ν} {U : Finset String}
    (h : ∀ node, ∀ x ∈ facts.entry.get node, x ∈ U) :
    total nodes facts ≤ nodes.toFinset.card * U.card := by
  refine Finset.sum_le_card_nsmul _ _ _ fun node _ => Finset.card_le_card fun x hx => ?_
  exact h node x (NameSet.mem_toFinset.mp hx)

/-- No transfer leads out of a set of names. -/
def StaysIn (U : Finset String) (nodes : List ν) (transfer : ν → NameSet → NameSet) : Prop :=
  ∀ node ∈ nodes, ∀ out : NameSet, (∀ x ∈ out, x ∈ U) → ∀ x ∈ transfer node out, x ∈ U

/-- A sweep keeps the entry sets inside a set that no transfer leads out of. -/
theorem sweep_inside {U : Finset String} (hU : StaysIn U nodes transfer) (sweeps : Nat)
    {facts : Assignment ν} (h : ∀ node, ∀ x ∈ facts.entry.get node, x ∈ U) :
    ∀ node, ∀ x ∈ ((steady nodes successors transfer).sweep sweeps facts).entry.get node,
      x ∈ U := by
  apply sweep_induction (P := fun now => ∀ node, ∀ x ∈ now.entry.get node, x ∈ U)
  · intro now hnow node hnode m x hx
    by_cases hm : m = node
    · subst hm
      rw [visit, Table.get_set_self] at hx
      refine hU m (mem_order.mp hnode) _ (fun y hy => ?_) x hx
      obtain ⟨next, -, hy⟩ := mem_exitOf.mp hy
      exact hnow next y hy
    · rw [visit, Table.get_set_ne hm] at hx
      exact hnow m x hx
  · exact h

/-- What is no node has the same entry set after a sweep. -/
theorem sweep_get_of_not_mem {sweeps : Nat} {facts : Assignment ν} {node : ν} (h : node ∉ nodes) :
    ((steady nodes successors transfer).sweep sweeps facts).entry.get node =
      facts.entry.get node := by
  have horder : node ∉ (steady nodes successors transfer).order := fun hm => h (mem_order.mp hm)
  rw [Table.get, Table.get, sweep, (foldl_visit_of_not_mem sweeps horder facts).1]

/-- A run ends within `r + 2` sweeps if at most `r` names can still be added.  The induction is on
`r`: a sweep that goes on adds a name, or is the last but one. -/
theorem iterate_returns (hmono : MonotoneTransfer nodes transfer) {U : Finset String}
    (hU : StaysIn U nodes transfer) {r budget sweeps : Nat}
    {facts : Assignment ν} (hrising : (steady nodes successors transfer).Rising facts)
    (hinside : ∀ node, ∀ x ∈ facts.entry.get node, x ∈ U)
    (hr : nodes.toFinset.card * U.card ≤ total nodes facts + r) (hbudget : r + 2 ≤ budget) :
    ∃ sol, (steady nodes successors transfer).iterate budget sweeps facts = .ok sol ∧
      sol.passes ≤ sweeps + r + 2 := by
  induction r using Nat.strong_induction_on generalizing budget sweeps facts with
  | _ r ih =>
    obtain ⟨budget, rfl⟩ : ∃ n, budget = n + 1 := ⟨budget - 1, by omega⟩
    obtain ⟨hgrows, hrising'⟩ := sweep_rising hmono sweeps hrising
    have hinside' : ∀ node, ∀ x ∈
        ((steady nodes successors transfer).sweep sweeps facts).entry.get node, x ∈ U :=
      sweep_inside hU sweeps hinside
    rw [iterate]
    by_cases hfix : (steady nodes successors transfer).sweep sweeps facts = facts
    · refine ⟨_, if_pos hfix, ?_⟩
      show sweeps + 1 ≤ sweeps + r + 2
      omega
    simp only [if_neg hfix]
    by_cases hsame : ∃ node ∈ nodes,
        ((steady nodes successors transfer).sweep sweeps facts).entry.get node ≠
          facts.entry.get node
    · -- a name was added, so fewer are left to be added
      have hlt := hgrows.total_lt hsame
      have hle := total_le nodes hinside'
      have hrest : ∃ sol, (steady nodes successors transfer).iterate budget (sweeps + 1)
          ((steady nodes successors transfer).sweep sweeps facts) = .ok sol ∧
          sol.passes ≤ sweeps + 1 + (r - 1) + 2 :=
        ih (r - 1) (by omega) hrising' hinside' (by omega) (by omega)
      obtain ⟨sol, hsol, hpasses⟩ := hrest
      exact ⟨sol, hsol, by omega⟩
    · -- only exit sets have changed, and the next sweep is clean
      have hentries : ∀ m, ((steady nodes successors transfer).sweep sweeps facts).entry.get m =
          facts.entry.get m := by
        intro m
        by_cases hm : m ∈ nodes
        · exact Classical.byContradiction fun hne => hsame ⟨m, hm, hne⟩
        · exact sweep_get_of_not_mem hm
      have hsettled := settledAt_of_same_entries nodup_order hentries
      obtain ⟨budget, rfl⟩ : ∃ n, budget = n + 1 := ⟨budget - 1, by omega⟩
      rw [iterate]
      refine ⟨_, if_pos (sweep_eq_self hsettled), ?_⟩
      show sweeps + 1 + 1 ≤ sweeps + r + 2
      omega

/-- Nothing has been added yet at the start, so `n * |U| + 2` sweeps are enough. -/
theorem solve_returns (hmono : MonotoneTransfer nodes transfer) {U : Finset String}
    (hU : StaysIn U nodes transfer) {cap : Int}
    (hcap : ((nodes.toFinset.card * U.card + 2 : Nat) : Int) ≤ cap) :
    ∃ sol, (steady nodes successors transfer).solve cap = .ok sol ∧
      sol.passes ≤ nodes.toFinset.card * U.card + 2 := by
  have hempty : ∀ node, ∀ x ∈ (steady nodes successors transfer).start.entry.get node, x ∈ U := by
    intro node x hx
    rw [start, Table.get_blank] at hx
    exact absurd hx (NameSet.not_mem_empty x)
  have hrun : ∃ sol, (steady nodes successors transfer).iterate cap.toNat 0
      (steady nodes successors transfer).start = .ok sol ∧
      sol.passes ≤ 0 + nodes.toFinset.card * U.card + 2 :=
    iterate_returns hmono hU (rising_start _) hempty (Nat.le_add_left _ _) (by omega)
  rw [Nat.zero_add] at hrun
  exact hrun

end Bound

/-- **The solver finds the least solution.**  Whatever the nodes, the successors and the transfers
are, the sets of a run that returns are about the nodes and satisfy the equations.  If the
transfers are monotone, they are below those of every other solution, and the same nodes listed in
another way, under any cap, have the same sets.  If moreover no transfer leads out of a finite set
`U`, a run whose cap is at least `n * |U| + 2` returns, after at most so many sweeps. -/
theorem solve_finds_least_solution (nodes : List ν) (successors : ν → List ν)
    (transfer : ν → NameSet → NameSet) :
    (∀ cap sol, (steady nodes successors transfer).solve cap = .ok sol →
      (∀ node, (node ∈ sol.facts.entry.keys ↔ node ∈ nodes) ∧
        (node ∈ sol.facts.exit.keys ↔ node ∈ nodes)) ∧
      IsSolution nodes successors transfer sol.facts.entry.get sol.facts.exit.get) ∧
    (MonotoneTransfer nodes transfer →
      (∀ cap sol, (steady nodes successors transfer).solve cap = .ok sol →
        ∀ entry exit, IsSolution nodes successors transfer entry exit → ∀ node ∈ nodes,
          (∀ x ∈ sol.facts.entry.get node, x ∈ entry node) ∧
          ∀ x ∈ sol.facts.exit.get node, x ∈ exit node) ∧
      (∀ cap sol, (steady nodes successors transfer).solve cap = .ok sol →
        ∀ nodes', (∀ node, node ∈ nodes' ↔ node ∈ nodes) →
        ∀ cap' sol', (steady nodes' successors transfer).solve cap' = .ok sol' →
        ∀ node, sol'.facts.entry.get? node = sol.facts.entry.get? node ∧
          sol'.facts.exit.get? node = sol.facts.exit.get? node) ∧
      ∀ U : Finset String, StaysIn U nodes transfer →
        ∀ cap : Int, ((nodes.toFinset.card * U.card + 2 : Nat) : Int) ≤ cap →
        ∃ sol, (steady nodes successors transfer).solve cap = .ok sol ∧
          sol.passes ≤ nodes.toFinset.card * U.card + 2) := by
  refine ⟨fun cap sol hrun => ⟨solve_keys_iff hrun, solve_isSolution hrun⟩, fun hmono => ?_⟩
  refine ⟨?_, ?_, ?_⟩
  · intro cap sol hrun entry exit h node hnode
    exact solve_least hmono hrun h hnode
  · intro cap sol hrun nodes' hnodes cap' sol' hrun' node
    exact solve_get?_eq hmono hnodes hrun hrun' node
  · intro U hU cap hcap
    exact solve_returns hmono hU hcap

/-- The edges `1 → 2 → 3 → 1`, and one from `3` to a node that is not listed. -/
def ringNext : Nat → List Nat
  | 1 => [2]
  | 2 => [3]
  | 3 => [1, 9]
  | _ => []

/-- `3` adds a name and `1` removes another one. -/
def ringStep (node : Nat) (out : NameSet) : NameSet :=
  if node = 3 then out.insert "a" else if node = 1 then out \ .ofList ["b"] else out

/-- Around a ring of three nodes, one of them listed twice, the run returns within five sweeps, and
the name that `3` adds is at the entry of `1` in what it returns and in every solution. -/
theorem ring_finds_least_solution :
    ∃ sol, (steady [1, 2, 3, 2] ringNext ringStep).solve 5 = .ok sol ∧ sol.passes ≤ 5 ∧
      IsSolution [1, 2, 3, 2] ringNext ringStep sol.facts.entry.get sol.facts.exit.get ∧
      "a" ∈ sol.facts.entry.get 1 ∧
      ∀ entry exit, IsSolution [1, 2, 3, 2] ringNext ringStep entry exit → "a" ∈ entry 1 := by
  have hmono : MonotoneTransfer [1, 2, 3, 2] ringStep := by
    intro node _ out out' hsub x hx
    by_cases h3 : node = 3
    · rw [ringStep, if_pos h3, NameSet.mem_insert] at hx ⊢
      exact hx.imp_right (hsub x)
    by_cases h1 : node = 1
    · rw [ringStep, if_neg h3, if_pos h1, NameSet.mem_sdiff] at hx ⊢
      exact hx.imp_left (hsub x)
    · rw [ringStep, if_neg h3, if_neg h1] at hx ⊢
      exact hsub x hx
  have hstays : StaysIn {"a"} [1, 2, 3, 2] ringStep := by
    intro node _ out hout x hx
    unfold ringStep at hx
    split at hx
    · rcases NameSet.mem_insert.mp hx with hx | hx
      · exact Finset.mem_singleton.mpr hx
      · exact hout x hx
    · split at hx
      · exact hout x (NameSet.mem_sdiff.mp hx).1
      · exact hout x hx
  obtain ⟨hsolves, hmore⟩ := solve_finds_least_solution [1, 2, 3, 2] ringNext ringStep
  obtain ⟨hleast, -, hreturns⟩ := hmore hmono
  obtain ⟨sol, hrun, hpasses⟩ := hreturns {"a"} hstays 5 (by decide)
  obtain ⟨-, hsol⟩ := hsolves 5 sol hrun
  have hname : ∀ entry exit, IsSolution [1, 2, 3, 2] ringNext ringStep entry exit →
      "a" ∈ entry 1 := by
    intro entry exit h
    -- backwards around the ring, from `3` to `2` to `1`
    have h3 : "a" ∈ entry 3 := by
      rw [h.entry_eq 3 (by decide)]
      exact NameSet.mem_insert.mpr (Or.inl rfl)
    have h2 : "a" ∈ entry 2 := by
      rw [h.entry_eq 2 (by decide)]
      exact (h.exit_iff 2 (by decide) "a").mpr ⟨3, by decide, by decide, h3⟩
    rw [h.entry_eq 1 (by decide)]
    refine NameSet.mem_sdiff.mpr ⟨?_, by decide⟩
    exact (h.exit_iff 1 (by decide) "a").mpr ⟨2, by decide, by decide, h2⟩
  exact ⟨sol, hrun, hpasses, hsol, hname _ _ hsol, hname⟩

end Equations

end Liveness
