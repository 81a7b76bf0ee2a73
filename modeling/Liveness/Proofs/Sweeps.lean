/-
Liveness/Proofs/Sweeps.lean

What a run of the solver keeps.  Everything is said once about a visit, the
evaluation of the equations of one node, and carried from there to sweeps and to
whole runs (`solve_induction`).

Two facts come out of it, for any system of equations.  Nothing is put into a
set without a reason (`solve_entry_sound`): whatever is closed under the
equations holds of every name in every entry set.  And the sets that a run ends
with satisfy the equations (`solve_settled`).  For the second one it matters that
a sweep visits each node once: the sweep as a whole gives the sets back, so each
of its visits has to, because no later visit of the same sweep can undo what it
writes.
-/
import Liveness.Dataflow.Solver
import Liveness.Proofs.Tables

namespace Liveness

namespace Equations

variable {ν : Type} [DecidableEq ν] {eqs : Equations ν}

/-! ### Exit sets -/

theorem mem_foldl_union {x : String} {entry : Table ν} {nexts : List ν} {out : NameSet} :
    x ∈ nexts.foldl (fun out next => out ∪ entry.get next) out ↔
      x ∈ out ∨ ∃ next ∈ nexts, x ∈ entry.get next := by
  induction nexts generalizing out with
  | nil => simp
  | cons next rest ih =>
    rw [List.foldl_cons, ih, NameSet.mem_union, or_assoc]
    simp

/-- A name holds at the exit of a node if it holds at the entry of a successor. -/
theorem mem_exitOf {facts : Assignment ν} {node : ν} {x : String} :
    x ∈ eqs.exitOf facts node ↔ ∃ next ∈ eqs.successors node, x ∈ facts.entry.get next := by
  rw [exitOf, mem_foldl_union]
  simp

/-! ### Visits -/

@[simp] theorem mem_order {node : ν} : node ∈ eqs.order ↔ node ∈ eqs.nodes :=
  mem_unique

theorem nodup_order : eqs.order.Nodup :=
  nodup_unique eqs.nodes

/-- Visits leave the sets of all other nodes alone. -/
theorem foldl_visit_of_not_mem (sweeps : Nat) {node : ν} {nodes : List ν}
    (h : node ∉ nodes) (facts : Assignment ν) :
    (nodes.foldl (eqs.visit sweeps) facts).entry.get? node = facts.entry.get? node ∧
      (nodes.foldl (eqs.visit sweeps) facts).exit.get? node = facts.exit.get? node := by
  induction nodes generalizing facts with
  | nil => exact ⟨rfl, rfl⟩
  | cons first rest ih =>
    obtain ⟨hne, hrest⟩ := List.ne_and_not_mem_of_not_mem_cons h
    obtain ⟨hentry, hexit⟩ := ih hrest (eqs.visit sweeps facts first)
    rw [List.foldl_cons, hentry, hexit]
    exact ⟨Table.get?_set_ne hne _ _, Table.get?_set_ne hne _ _⟩

/-- The sets of a node are what its equations give. -/
def SettledAt (eqs : Equations ν) (sweeps : Nat) (facts : Assignment ν) (node : ν) : Prop :=
  facts.exit.get? node = some (eqs.exitOf facts node) ∧
    facts.entry.get? node = some (eqs.transfer sweeps node (eqs.exitOf facts node))

/-- A visit that would change nothing changes nothing. -/
theorem visit_eq_self {sweeps : Nat} {facts : Assignment ν} {node : ν}
    (h : eqs.SettledAt sweeps facts node) : eqs.visit sweeps facts node = facts := by
  obtain ⟨entry, exit⟩ := facts
  obtain ⟨hexit, hentry⟩ := h
  show Assignment.mk _ _ = _
  rw [Table.set_eq_self hexit, Table.set_eq_self hentry]

/-- If visits of different nodes give the sets back as a whole, each of them does. -/
theorem settledAt_of_foldl_visit_eq {sweeps : Nat} {nodes : List ν} {facts : Assignment ν}
    (hn : nodes.Nodup) (h : nodes.foldl (eqs.visit sweeps) facts = facts) :
    ∀ node ∈ nodes, eqs.SettledAt sweeps facts node := by
  induction nodes with
  | nil =>
    intro node hm
    cases hm
  | cons first rest ih =>
    obtain ⟨hfirst, hrest⟩ := List.nodup_cons.mp hn
    rw [List.foldl_cons] at h
    -- what the first visit writes is still there at the end
    obtain ⟨hentry, hexit⟩ :=
      foldl_visit_of_not_mem sweeps hfirst (eqs.visit sweeps facts first)
    rw [h] at hentry hexit
    have hs : eqs.SettledAt sweeps facts first :=
      ⟨hexit.trans (Table.get?_set_self _ _ _), hentry.trans (Table.get?_set_self _ _ _)⟩
    rw [visit_eq_self hs] at h
    intro node hm
    rcases List.mem_cons.mp hm with rfl | hm
    · exact hs
    · exact ih hrest h node hm

/-! ### Runs -/

/-- What visits keep is kept by a sweep. -/
theorem sweep_induction {P : Assignment ν → Prop} {sweeps : Nat}
    (hvisit : ∀ facts, P facts → ∀ node ∈ eqs.order, P (eqs.visit sweeps facts node))
    {facts : Assignment ν} (h : P facts) : P (eqs.sweep sweeps facts) := by
  have key : ∀ nodes : List ν, (∀ node ∈ nodes, node ∈ eqs.order) →
      ∀ facts, P facts → P (nodes.foldl (eqs.visit sweeps) facts) := by
    intro nodes
    induction nodes with
    | nil => exact fun _ _ h => h
    | cons first rest ih =>
      intro hsub facts h
      exact ih (fun node hm => hsub node (List.mem_cons_of_mem _ hm)) _
        (hvisit facts h first (hsub first List.mem_cons_self))
  exact key eqs.order (fun _ hm => hm) facts h

/-- What sweeps keep holds at the end of a run, where the last sweep changed nothing. -/
theorem iterate_induction {P : Assignment ν → Prop}
    (hsweep : ∀ sweeps facts, P facts → P (eqs.sweep sweeps facts)) {budget sweeps : Nat}
    {facts : Assignment ν} {sol : Solution ν} (h : P facts)
    (hrun : eqs.iterate budget sweeps facts = .ok sol) :
    P sol.facts ∧ ∃ last, eqs.sweep last sol.facts = sol.facts := by
  induction budget generalizing sweeps facts with
  | zero => cases hrun
  | succ budget ih =>
    simp only [iterate] at hrun
    by_cases hfix : eqs.sweep sweeps facts = facts
    · -- the sets returned are those after a sweep that changed nothing
      rw [if_pos hfix] at hrun
      obtain rfl := Except.ok.inj hrun
      refine ⟨hsweep sweeps facts h, sweeps, ?_⟩
      show eqs.sweep sweeps (eqs.sweep sweeps facts) = eqs.sweep sweeps facts
      rw [hfix, hfix]
    · rw [if_neg hfix] at hrun
      exact ih (hsweep sweeps facts h) hrun

/-- What holds of empty sets and is kept by visits holds of the sets that a run ends with. -/
theorem solve_induction {P : Assignment ν → Prop} (hstart : P eqs.start)
    (hvisit : ∀ sweeps facts, P facts → ∀ node ∈ eqs.order, P (eqs.visit sweeps facts node))
    {cap : Int} {sol : Solution ν} (hrun : eqs.solve cap = .ok sol) : P sol.facts :=
  (iterate_induction (fun sweeps _ h => sweep_induction (hvisit sweeps) h) hstart hrun).1

/-! ### Keys -/

/-- Both tables are about the nodes. -/
def Keyed (eqs : Equations ν) (facts : Assignment ν) : Prop :=
  facts.entry.keys = eqs.order ∧ facts.exit.keys = eqs.order

theorem keyed_start (eqs : Equations ν) : eqs.Keyed eqs.start :=
  ⟨Table.keys_blank _, Table.keys_blank _⟩

theorem Keyed.visit {facts : Assignment ν} (h : eqs.Keyed facts) (sweeps : Nat) {node : ν}
    (hnode : node ∈ eqs.order) : eqs.Keyed (eqs.visit sweeps facts node) := by
  obtain ⟨hentry, hexit⟩ := h
  constructor
  · show (facts.entry.set node _).keys = _
    rw [Table.keys_set_of_mem (hentry ▸ hnode), hentry]
  · show (facts.exit.set node _).keys = _
    rw [Table.keys_set_of_mem (hexit ▸ hnode), hexit]

theorem Keyed.sweep {facts : Assignment ν} (h : eqs.Keyed facts) (sweeps : Nat) :
    eqs.Keyed (eqs.sweep sweeps facts) :=
  sweep_induction (fun _ hfacts _ hnode => hfacts.visit sweeps hnode) h

/-! ### What a run ends with -/

/-- The keys of both tables are the nodes, in the order of a sweep. -/
theorem solve_keys {cap : Int} {sol : Solution ν} (hrun : eqs.solve cap = .ok sol) :
    sol.facts.entry.keys = eqs.order ∧ sol.facts.exit.keys = eqs.order :=
  solve_induction (P := eqs.Keyed) eqs.keyed_start
    (fun sweeps _ hfacts _ hnode => hfacts.visit sweeps hnode) hrun

/-- Names get into an entry set only by the equations. -/
theorem solve_entry_sound {S : ν → String → Prop}
    (hclosed : ∀ sweeps, ∀ node ∈ eqs.nodes, ∀ out,
      (∀ x ∈ out, ∃ next ∈ eqs.successors node, S next x) →
      ∀ x ∈ eqs.transfer sweeps node out, S node x)
    {cap : Int} {sol : Solution ν} (hrun : eqs.solve cap = .ok sol) {node : ν} {x : String}
    (hx : x ∈ sol.facts.entry.get node) : S node x := by
  refine solve_induction (P := fun facts => ∀ node x, x ∈ facts.entry.get node → S node x)
    ?_ ?_ hrun node x hx
  · intro node x hx
    rw [start, Table.get_blank] at hx
    exact absurd hx (NameSet.not_mem_empty x)
  · intro sweeps facts h visited hvisited node x hx
    by_cases hne : node = visited
    · subst hne
      rw [visit, Table.get_set_self] at hx
      refine hclosed sweeps node (mem_order.mp hvisited) _ ?_ x hx
      intro y hy
      obtain ⟨next, hnext, hy⟩ := mem_exitOf.mp hy
      exact ⟨next, hnext, h next y hy⟩
    · rw [visit, Table.get_set_ne hne] at hx
      exact h node x hx

/-- The sets that a run ends with satisfy the equations. -/
theorem solve_settled {cap : Int} {sol : Solution ν} (hrun : eqs.solve cap = .ok sol) :
    ∃ last, ∀ node ∈ eqs.nodes, eqs.SettledAt last sol.facts node := by
  obtain ⟨-, last, hlast⟩ := iterate_induction (P := fun _ => True)
    (fun _ _ _ => trivial) trivial hrun
  refine ⟨last, fun node hnode => ?_⟩
  exact settledAt_of_foldl_visit_eq nodup_order hlast node (mem_order.mpr hnode)

end Equations

end Liveness
