/-
Liveness/Proofs/Passes.lean

How many sweeps live variables take.  A visit reads new entry sets of the nodes
visited before it in the same sweep and old ones of all the others
(`mem_exit_sweep`).  So a name that is read at the end of a path travels back
along the path for free where the path goes back in the order of visits, and
waits for the next sweep at every *ascent*, where it does not: after `k` sweeps
exactly the paths with fewer than `k` ascents are seen (`mem_entry_after`,
`exists_path_of_mem_entry_after`).

A path that repeats no label has fewer ascents than there are nodes, so the entry
sets of `n` nodes are complete after `n` sweeps.  Exit sets could be one sweep
late.  They are not, once there are two nodes: the only path that needs all `n`
sweeps goes through all nodes in the order of visits, and the one exit set that
depends on it is that of its last node, which is visited after the first
(`settledAt_after`).  The sweep after these changes nothing.
-/
import Liveness.Proofs.LeastSolutions
import Liveness.Proofs.LivePaths
import Mathlib.Data.List.Nodup
import Mathlib.Data.Nat.Find

namespace Liveness

namespace Equations

variable {ν : Type} [DecidableEq ν] {eqs : Equations ν}

/-! ### Sweep after sweep -/

/-- The sets after some sweeps. -/
def after (eqs : Equations ν) : Nat → Assignment ν
  | 0 => eqs.start
  | k + 1 => eqs.sweep k (eqs.after k)

/-- What visits keep holds after any number of sweeps. -/
theorem after_induction {P : Assignment ν → Prop} (hstart : P eqs.start)
    (hvisit : ∀ sweeps facts, P facts → ∀ node ∈ eqs.order, P (eqs.visit sweeps facts node))
    (k : Nat) : P (eqs.after k) := by
  induction k with
  | zero => exact hstart
  | succ k ih => exact sweep_induction (hvisit k) ih

/-- The sweep after the first `q` is the first one that changes nothing. -/
structure FirstIdle (eqs : Equations ν) (q : Nat) : Prop where
  idle : eqs.after (q + 1) = eqs.after q
  busy : ∀ k < q, eqs.after (k + 1) ≠ eqs.after k

/-- Where some sweep changes nothing there is a first one. -/
theorem exists_firstIdle {k : Nat} (h : eqs.after (k + 1) = eqs.after k) :
    ∃ q ≤ k, eqs.FirstIdle q := by
  have hsome : ∃ k, eqs.after (k + 1) = eqs.after k := ⟨k, h⟩
  exact ⟨Nat.find hsome, Nat.find_min' hsome h,
    ⟨Nat.find_spec hsome, fun _ hk => Nat.find_min hsome hk⟩⟩

/-- A run that may take enough sweeps ends with that one. -/
theorem FirstIdle.iterate_ok {q budget sweeps : Nat} (h : eqs.FirstIdle q) (hsweeps : sweeps ≤ q)
    (hbudget : q < sweeps + budget) :
    eqs.iterate budget sweeps (eqs.after sweeps) = .ok ⟨eqs.after q, q + 1⟩ := by
  induction budget generalizing sweeps with
  | zero => omega
  | succ budget ih =>
    rw [iterate]
    rcases Nat.lt_or_eq_of_le hsweeps with hlt | rfl
    · have hbusy : eqs.sweep sweeps (eqs.after sweeps) ≠ eqs.after sweeps := h.busy sweeps hlt
      rw [if_neg hbusy]
      exact ih hlt (by omega)
    · have hidle : eqs.sweep sweeps (eqs.after sweeps) = eqs.after sweeps := h.idle
      rw [if_pos hidle, hidle]

/-- A run fails if every sweep that it may take changes something. -/
theorem iterate_after_error {budget sweeps : Nat}
    (h : ∀ k, sweeps ≤ k → k < sweeps + budget → eqs.after (k + 1) ≠ eqs.after k) :
    eqs.iterate budget sweeps (eqs.after sweeps) = .error ⟨sweeps + budget⟩ := by
  induction budget generalizing sweeps with
  | zero => rfl
  | succ budget ih =>
    have hnow : eqs.sweep sweeps (eqs.after sweeps) ≠ eqs.after sweeps :=
      h sweeps (Nat.le_refl _) (by omega)
    have hlater : eqs.iterate budget (sweeps + 1) (eqs.after (sweeps + 1)) =
        .error ⟨sweeps + 1 + budget⟩ := ih fun k hk hlt => h k (by omega) (by omega)
    rw [iterate, if_neg hnow, Nat.add_comm budget 1, ← Nat.add_assoc]
    exact hlater

/-! ### What a sweep does at a node -/

/-- A sweep visits the first node before the second. -/
def Before (eqs : Equations ν) (m node : ν) : Prop :=
  eqs.order.idxOf m < eqs.order.idxOf node

instance (m node : ν) : Decidable (eqs.Before m node) :=
  inferInstanceAs (Decidable (_ < _))

theorem before_iff {node : ν} {pre post : List ν} (h : eqs.order = pre ++ node :: post) (m : ν) :
    eqs.Before m node ↔ m ∈ pre := by
  have hnode : node ∉ pre := by
    have hn : (pre ++ node :: post).Nodup := h ▸ nodup_order
    exact fun hm => (List.disjoint_of_nodup_append hn) hm List.mem_cons_self
  rw [Before, h, List.idxOf_append_of_notMem hnode, List.idxOf_cons_self, Nat.add_zero]
  by_cases hm : m ∈ pre
  · rw [List.idxOf_append_of_mem hm]
    exact iff_of_true (List.idxOf_lt_length_iff.mpr hm) hm
  · rw [List.idxOf_append_of_notMem hm]
    exact iff_of_false (by omega) hm

/-- A node that is visited has the sets that the visit gave it, and the visit read the entry sets
of a sweep that is done up to there. -/
theorem sweep_at {sweeps : Nat} {facts : Assignment ν} {node : ν} {pre post : List ν}
    (h : eqs.order = pre ++ node :: post) :
    (eqs.sweep sweeps facts).exit.get? node =
        some (eqs.exitOf (pre.foldl (eqs.visit sweeps) facts) node) ∧
      (eqs.sweep sweeps facts).entry.get? node = some (eqs.transfer sweeps node
        (eqs.exitOf (pre.foldl (eqs.visit sweeps) facts) node)) := by
  have hn : (node :: post).Nodup := (List.nodup_append.mp (h ▸ nodup_order)).2.1
  rw [sweep, h, List.foldl_append, List.foldl_cons]
  -- no visit after it touches the node again
  have hpost : node ∉ post := (List.nodup_cons.mp hn).1
  rw [(foldl_visit_of_not_mem sweeps hpost _).1, (foldl_visit_of_not_mem sweeps hpost _).2]
  exact ⟨Table.get?_set_self _ _ _, Table.get?_set_self _ _ _⟩

/-- In the middle of a sweep the nodes visited so far have their new entry sets. -/
theorem entry_middle {sweeps : Nat} {facts : Assignment ν} {pre post : List ν}
    (h : eqs.order = pre ++ post) (m : ν) :
    (pre.foldl (eqs.visit sweeps) facts).entry.get m =
      if m ∈ pre then (eqs.sweep sweeps facts).entry.get m else facts.entry.get m := by
  have hn : (pre ++ post).Nodup := h ▸ nodup_order
  split
  · next hm =>
    have hpost : m ∉ post := List.disjoint_of_nodup_append hn hm
    rw [sweep, h, List.foldl_append, Table.get, Table.get,
      (foldl_visit_of_not_mem sweeps hpost _).1]
  · next hm =>
    rw [Table.get, Table.get, (foldl_visit_of_not_mem sweeps hm facts).1]

/-- What is at the exit of a node after a sweep: what was at the entries of its successors, after
the sweep for those that are visited before it, and before the sweep for the others. -/
theorem mem_exit_sweep {sweeps : Nat} {facts : Assignment ν} {node : ν} (hnode : node ∈ eqs.nodes)
    {x : String} :
    x ∈ (eqs.sweep sweeps facts).exit.get node ↔ ∃ m ∈ eqs.successors node,
      if eqs.Before m node then x ∈ (eqs.sweep sweeps facts).entry.get m
        else x ∈ facts.entry.get m := by
  obtain ⟨pre, post, horder⟩ := List.append_of_mem (mem_order.mpr hnode)
  rw [Table.get_of_get? (sweep_at horder).1, mem_exitOf]
  refine exists_congr fun m => and_congr_right fun _ => ?_
  rw [entry_middle horder]
  by_cases hm : m ∈ pre
  · rw [if_pos hm, if_pos ((before_iff horder m).mpr hm)]
  · rw [if_neg hm, if_neg fun hb => hm ((before_iff horder m).mp hb)]

/-- The entry set of a node after a sweep comes from its exit set. -/
theorem entry_sweep {sweeps : Nat} {facts : Assignment ν} {node : ν} (hnode : node ∈ eqs.nodes) :
    (eqs.sweep sweeps facts).entry.get node =
      eqs.transfer sweeps node ((eqs.sweep sweeps facts).exit.get node) := by
  obtain ⟨pre, post, horder⟩ := List.append_of_mem (mem_order.mpr hnode)
  rw [Table.get_of_get? (sweep_at horder).2, Table.get_of_get? (sweep_at horder).1]

/-! ### Ascents -/

/-- How often a path through some nodes to the last one goes on to a node that is not visited
before the one it comes from. -/
def ascents (eqs : Equations ν) (last : ν) : List ν → Nat
  | [] => 0
  | node :: rest => (if eqs.Before (rest.headD last) node then 0 else 1) + eqs.ascents last rest

theorem ascents_le_length (last : ν) (passed : List ν) : eqs.ascents last passed ≤ passed.length := by
  induction passed with
  | nil => exact Nat.le_refl _
  | cons node rest ih =>
    rw [ascents, List.length_cons]
    split <;> omega

/-- A path that only ascends does not end before it starts. -/
theorem not_before_of_ascents {last : ν} {passed : List ν}
    (h : passed.length ≤ eqs.ascents last passed) : ¬ eqs.Before last (passed.headD last) := by
  induction passed with
  | nil => exact Nat.lt_irrefl _
  | cons node rest ih =>
    have hle : eqs.ascents last rest ≤ rest.length := ascents_le_length last rest
    rw [ascents, List.length_cons] at h
    split at h
    · omega
    · next hascent =>
      have hrest : ¬ eqs.Before last (rest.headD last) := ih (by omega)
      show ¬ eqs.order.idxOf last < eqs.order.idxOf node
      simp only [Before] at hascent hrest
      omega

/-- Of two nodes one is visited before the other. -/
theorem before_of_not_before {m node : ν} (hm : m ∈ eqs.nodes) (hne : m ≠ node)
    (h : ¬ eqs.Before node m) : eqs.Before m node := by
  have hidx : eqs.order.idxOf m ≠ eqs.order.idxOf node := fun he =>
    hne (List.idxOf_inj (mem_order.mpr hm) |>.mp he)
  simp only [Before] at h ⊢
  omega

end Equations

/-! ### Paths without repetitions -/

section Paths

variable {flows : List Flow} {first last : Label} {passed : List Label}

theorem FlowPath.headD (h : FlowPath flows first passed last) : passed.headD last = first := by
  cases h <;> rfl

/-- From every label on a path its rest leads on. -/
theorem FlowPath.exists_rest (h : FlowPath flows first passed last) {m : Label}
    (hm : m ∈ passed ++ [last]) : ∃ pre rest, passed = pre ++ rest ∧ FlowPath flows m rest last := by
  induction h with
  | here label =>
    obtain rfl : m = label := by simpa using hm
    exact ⟨[], [], rfl, .here m⟩
  | @step first next last passed hflow hrest ih =>
    rcases List.mem_cons.mp hm with rfl | hm
    · exact ⟨[], m :: passed, rfl, .step hflow hrest⟩
    · obtain ⟨pre, rest, hpassed, hpath⟩ := ih hm
      exact ⟨first :: pre, rest, by rw [hpassed]; rfl, hpath⟩

/-- A path can be cut short until it repeats no label. -/
theorem FlowPath.exists_nodup (h : FlowPath flows first passed last) :
    ∃ short, FlowPath flows first short last ∧ (short ++ [last]).Nodup ∧ short ⊆ passed := by
  induction h with
  | here label => exact ⟨[], .here label, by simp, by simp⟩
  | @step first next last passed hflow _ ih =>
    obtain ⟨short, hpath, hnodup, hsub⟩ := ih
    by_cases hm : first ∈ short ++ [last]
    · -- the path comes back to its first label: what was before is not needed
      obtain ⟨pre, rest, hshort, hrest⟩ := hpath.exists_rest hm
      refine ⟨rest, hrest, ?_, ?_⟩
      · rw [hshort, List.append_assoc] at hnodup
        exact (List.nodup_append.mp hnodup).2.1
      · intro l hl
        have hl' : l ∈ short := by rw [hshort]; exact List.mem_append_right pre hl
        exact List.mem_cons_of_mem first (hsub hl')
    · exact ⟨first :: short, .step hflow hpath, List.nodup_cons.mpr ⟨hm, hnodup⟩,
        List.cons_subset_cons first hsub⟩

end Paths

/-! ### Live variables after some sweeps -/

section Live

variable {flows : List Flow} {kill gen : Table Label} {labels : List Label}

theorem FlowPath.mem_nodes {first last : Label} {passed : List Label}
    (h : FlowPath flows first passed last)
    (hfirst : first ∈ (Equations.live flows kill gen labels).nodes) :
    ∀ l ∈ passed ++ [last], l ∈ (Equations.live flows kill gen labels).nodes := by
  induction h with
  | here label =>
    intro l hl
    rw [List.mem_singleton.mp hl]
    exact hfirst
  | @step first next last passed hflow _ ih =>
    intro l hl
    rcases List.mem_cons.mp hl with rfl | hl
    · exact hfirst
    · exact ih (mem_live_nodes.mpr (Or.inr ⟨first, Or.inr hflow⟩)) l hl

/-- Labels on paths, none of them twice, are no more than the nodes. -/
theorem length_le_of_nodup {path : List Label} (hnodup : path.Nodup)
    (hsub : ∀ l ∈ path, l ∈ (Equations.live flows kill gen labels).nodes) :
    path.length ≤ (Equations.live flows kill gen labels).order.length :=
  (List.subperm_of_subset hnodup fun l hl => Equations.mem_order.mpr (hsub l hl)).length_le

/-- A name is at the exit of a label if it is at the entry of a label after it, before and after
the sweep. -/
theorem mem_exit_after {k : Nat} {l m : Label} {x : String}
    (hl : l ∈ (Equations.live flows kill gen labels).nodes) (hflow : (l, m) ∈ flows)
    (hbefore : x ∈ ((Equations.live flows kill gen labels).after k).entry.get m)
    (hafter : x ∈ ((Equations.live flows kill gen labels).after (k + 1)).entry.get m) :
    x ∈ ((Equations.live flows kill gen labels).after (k + 1)).exit.get l := by
  refine (Equations.mem_exit_sweep hl).mpr ⟨m, mem_live_successors.mpr hflow, ?_⟩
  split
  · exact hafter
  · exact hbefore

/-- **Names travel back along paths.**  A name that is read at the end of a path is at the entry of
its first label after more sweeps than the path has ascents. -/
theorem mem_entry_after {first last : Label} {passed : List Label} {x : String}
    (hpath : FlowPath flows first passed last) (hgen : x ∈ gen.get last)
    (hpassed : ∀ l ∈ passed, x ∉ kill.get l)
    (hfirst : first ∈ (Equations.live flows kill gen labels).nodes) {k : Nat}
    (hk : (Equations.live flows kill gen labels).ascents last passed < k) :
    x ∈ ((Equations.live flows kill gen labels).after k).entry.get first := by
  induction hpath generalizing k with
  | here label =>
    obtain ⟨k, rfl⟩ := Nat.exists_eq_succ_of_ne_zero (Nat.ne_of_gt hk)
    show x ∈ (Equations.sweep _ k _).entry.get label
    rw [Equations.entry_sweep hfirst]
    exact mem_live_transfer.mpr (Or.inr hgen)
  | @step first next last passed hflow hrest ih =>
    have hnext : next ∈ (Equations.live flows kill gen labels).nodes :=
      mem_live_nodes.mpr (Or.inr ⟨first, Or.inr hflow⟩)
    have hlater : ∀ {k}, (Equations.live flows kill gen labels).ascents last passed < k →
        x ∈ ((Equations.live flows kill gen labels).after k).entry.get next :=
      ih hgen (fun l hl => hpassed l (List.mem_cons_of_mem _ hl)) hnext
    obtain ⟨k, rfl⟩ := Nat.exists_eq_succ_of_ne_zero (Nat.ne_of_gt (Nat.zero_lt_of_lt hk))
    rw [Equations.ascents, hrest.headD] at hk
    show x ∈ (Equations.sweep _ k _).entry.get first
    rw [Equations.entry_sweep hfirst]
    refine mem_live_transfer.mpr (Or.inl ⟨?_, hpassed first List.mem_cons_self⟩)
    refine (Equations.mem_exit_sweep hfirst).mpr ⟨next, mem_live_successors.mpr hflow, ?_⟩
    -- no sweep is lost where the path goes back in the order of visits
    split
    · next hbefore =>
      rw [if_pos hbefore] at hk
      exact hlater (k := k + 1) (by omega)
    · next hascent =>
      rw [if_neg hascent] at hk
      exact hlater (by omega)

/-- Nothing is seen without such a path.  The induction is on the number of sweeps, and in one sweep
on the place of the label in the order of visits. -/
theorem exists_path_of_mem_entry_after {k : Nat} {l : Label} {x : String}
    (hl : l ∈ (Equations.live flows kill gen labels).nodes)
    (hx : x ∈ ((Equations.live flows kill gen labels).after k).entry.get l) :
    ∃ passed last, FlowPath flows l passed last ∧ x ∈ gen.get last ∧
      (∀ m ∈ passed, x ∉ kill.get m) ∧
      (Equations.live flows kill gen labels).ascents last passed < k := by
  induction k generalizing l with
  | zero =>
    have hempty : ((Equations.live flows kill gen labels).after 0).entry.get l = ∅ :=
      Table.get_blank _ l
    rw [hempty] at hx
    exact absurd hx (NameSet.not_mem_empty x)
  | succ k ih =>
    induction hplace : (Equations.live flows kill gen labels).order.idxOf l
      using Nat.strong_induction_on generalizing l with
    | _ place ihplace =>
      subst hplace
      have hentry : ((Equations.live flows kill gen labels).after (k + 1)).entry.get l =
          (Equations.live flows kill gen labels).transfer k l
            (((Equations.live flows kill gen labels).after (k + 1)).exit.get l) :=
        Equations.entry_sweep hl
      rw [hentry] at hx
      rcases mem_live_transfer.mp hx with ⟨hexit, hkill⟩ | hgen
      · obtain ⟨m, hsucc, hm⟩ := (Equations.mem_exit_sweep hl).mp hexit
        have hflow := mem_live_successors.mp hsucc
        have hnode : m ∈ (Equations.live flows kill gen labels).nodes :=
          mem_live_nodes.mpr (Or.inr ⟨l, Or.inr hflow⟩)
        have hpassed : ∀ {passed : List Label}, (∀ i ∈ passed, x ∉ kill.get i) →
            ∀ i ∈ l :: passed, x ∉ kill.get i := by
          intro passed h i hi
          rcases List.mem_cons.mp hi with rfl | hi
          · exact hkill
          · exact h i hi
        split at hm
        · next hbefore =>
          obtain ⟨passed, last, hpath, hgen, hrest, hascents⟩ := ihplace _ hbefore hnode hm rfl
          refine ⟨l :: passed, last, .step hflow hpath, hgen, hpassed hrest, ?_⟩
          rw [Equations.ascents, hpath.headD, if_pos hbefore]
          omega
        · next hascent =>
          obtain ⟨passed, last, hpath, hgen, hrest, hascents⟩ := ih hnode hm
          refine ⟨l :: passed, last, .step hflow hpath, hgen, hpassed hrest, ?_⟩
          rw [Equations.ascents, hpath.headD, if_neg hascent]
          omega
      · exact ⟨[], l, .here l, hgen, by simp, Nat.succ_pos k⟩

/-- What is seen after some sweeps is read ahead. -/
theorem readAhead_of_mem_entry_after {k : Nat} {l : Label} {x : String}
    (hl : l ∈ (Equations.live flows kill gen labels).nodes)
    (hx : x ∈ ((Equations.live flows kill gen labels).after k).entry.get l) :
    ReadAhead flows kill gen x l := by
  obtain ⟨passed, last, hpath, hgen, hpassed, -⟩ := exists_path_of_mem_entry_after hl hx
  exact ⟨passed, last, hpath, hgen, hpassed⟩

/-- As many sweeps as there are nodes see all paths. -/
theorem mem_entry_after_iff {k : Nat} {l : Label} {x : String}
    (hk : (Equations.live flows kill gen labels).order.length ≤ k)
    (hl : l ∈ (Equations.live flows kill gen labels).nodes) :
    x ∈ ((Equations.live flows kill gen labels).after k).entry.get l ↔
      ReadAhead flows kill gen x l := by
  refine ⟨readAhead_of_mem_entry_after hl, ?_⟩
  rintro ⟨passed, last, hpath, hgen, hpassed⟩
  obtain ⟨short, hshort, hnodup, hsub⟩ := hpath.exists_nodup
  have hlength := length_le_of_nodup hnodup (hshort.mem_nodes hl)
  rw [List.length_append, List.length_singleton] at hlength
  have hascents : (Equations.live flows kill gen labels).ascents last short ≤ short.length :=
    Equations.ascents_le_length last short
  exact mem_entry_after hshort hgen (fun m hm => hpassed m (hsub hm)) hl (by omega)

/-- A path with fewer ascents than sweeps is seen at the exits before it. -/
theorem mem_exit_after_of_path {k : Nat} {l m last : Label} {passed : List Label} {x : String}
    (hl : l ∈ (Equations.live flows kill gen labels).nodes) (hflow : (l, m) ∈ flows)
    (hpath : FlowPath flows m passed last) (hgen : x ∈ gen.get last)
    (hpassed : ∀ l ∈ passed, x ∉ kill.get l)
    (hk : (Equations.live flows kill gen labels).ascents last passed < k) :
    x ∈ ((Equations.live flows kill gen labels).after (k + 1)).exit.get l := by
  have hm : m ∈ (Equations.live flows kill gen labels).nodes :=
    mem_live_nodes.mpr (Or.inr ⟨l, Or.inr hflow⟩)
  exact mem_exit_after hl hflow (mem_entry_after hpath hgen hpassed hm hk)
    (mem_entry_after hpath hgen hpassed hm (by omega))

/-- A label on a path, the last one left out, has the rest of the path at its exit. -/
theorem mem_exit_after_of_mem_path {k : Nat} {l m last : Label} {passed : List Label} {x : String}
    (hl : l ∈ (Equations.live flows kill gen labels).nodes) (hpath : FlowPath flows m passed last)
    (hnodup : (passed ++ [last]).Nodup) (hgen : x ∈ gen.get last)
    (hpassed : ∀ l ∈ passed, x ∉ kill.get l) (hmem : l ∈ passed) (hk : passed.length ≤ k) :
    x ∈ ((Equations.live flows kill gen labels).after (k + 1)).exit.get l := by
  obtain ⟨pre, rest, hsplit, hrest⟩ := hpath.exists_rest (List.mem_append_left _ hmem)
  cases hrest with
  | here => exact absurd (List.mem_singleton_self l) (List.disjoint_of_nodup_append hnodup hmem)
  | @step _ next _ rest hflow hrest =>
    have hshort : rest.length + 1 ≤ passed.length := by
      rw [hsplit, List.length_append, List.length_cons]
      omega
    have hascents : (Equations.live flows kill gen labels).ascents last rest ≤ rest.length :=
      Equations.ascents_le_length last rest
    refine mem_exit_after_of_path hl hflow hrest hgen (fun m hm => hpassed m ?_) (by omega)
    rw [hsplit]
    exact List.mem_append_right pre (List.mem_cons_of_mem l hm)

/-- A path through all nodes has no other label than those it passes and its last one. -/
theorem eq_last_of_length {l m last : Label} {passed : List Label}
    (hl : l ∈ (Equations.live flows kill gen labels).nodes)
    (hm : m ∈ (Equations.live flows kill gen labels).nodes) (hpath : FlowPath flows m passed last)
    (hnodup : (passed ++ [last]).Nodup) (hmem : l ∉ passed)
    (hfull : (Equations.live flows kill gen labels).order.length ≤ passed.length + 1) :
    l = last := by
  refine Classical.byContradiction fun hne => ?_
  have hmore : (l :: (passed ++ [last])).Nodup :=
    List.nodup_cons.mpr ⟨by simp [hmem, hne], hnodup⟩
  have hnodes : ∀ i ∈ l :: (passed ++ [last]), i ∈ (Equations.live flows kill gen labels).nodes := by
    intro i hi
    rcases List.mem_cons.mp hi with rfl | hi
    · exact hl
    · exact hpath.mem_nodes hm i hi
  have hlength := length_le_of_nodup hmore hnodes
  rw [List.length_cons, List.length_append, List.length_singleton] at hlength
  omega

/-- The first label of a path that only ascends is visited before the last one. -/
theorem before_of_ascents {m last : Label} {passed : List Label}
    (hm : m ∈ (Equations.live flows kill gen labels).nodes) (hpath : FlowPath flows m passed last)
    (hnodup : (passed ++ [last]).Nodup) (hlong : 1 ≤ passed.length)
    (hascents : passed.length ≤ (Equations.live flows kill gen labels).ascents last passed) :
    (Equations.live flows kill gen labels).Before m last := by
  have hne : m ≠ last := by
    rintro rfl
    cases hpath with
    | here => exact absurd hlong (by decide)
    | step => exact (List.nodup_cons.mp hnodup).1 (by simp)
  have hnot := Equations.not_before_of_ascents hascents
  rw [hpath.headD] at hnot
  exact Equations.before_of_not_before hm hne hnot

/-- As many sweeps as there are nodes, and two at least, see all paths at the exits as well. -/
theorem mem_exit_after_of_readAhead {k : Nat} {l m : Label} {x : String} (hk : 1 ≤ k)
    (hnodes : (Equations.live flows kill gen labels).order.length ≤ k + 1)
    (hl : l ∈ (Equations.live flows kill gen labels).nodes) (hflow : (l, m) ∈ flows)
    (hx : ReadAhead flows kill gen x m) :
    x ∈ ((Equations.live flows kill gen labels).after (k + 1)).exit.get l := by
  have hm : m ∈ (Equations.live flows kill gen labels).nodes :=
    mem_live_nodes.mpr (Or.inr ⟨l, Or.inr hflow⟩)
  have hentry := (mem_entry_after_iff hnodes hm).mpr hx
  obtain ⟨long, last, hlong, hgen, hkill⟩ := hx
  obtain ⟨passed, hpath, hnodup, hsub⟩ := hlong.exists_nodup
  have hpassed : ∀ l ∈ passed, x ∉ kill.get l := fun l hl => hkill l (hsub hl)
  have hlength : passed.length + 1 ≤ k + 1 := by
    have h := length_le_of_nodup hnodup (hpath.mem_nodes hm)
    rw [List.length_append, List.length_singleton] at h
    omega
  have hascents : (Equations.live flows kill gen labels).ascents last passed ≤ passed.length :=
    Equations.ascents_le_length last passed
  by_cases hmem : l ∈ passed
  · exact mem_exit_after_of_mem_path hl hpath hnodup hgen hpassed hmem (by omega)
  by_cases hfew : (Equations.live flows kill gen labels).ascents last passed < k
  · exact mem_exit_after_of_path hl hflow hpath hgen hpassed hfew
  -- what is left is a path through all nodes in the order of visits, and it ends at `l`
  obtain rfl := eq_last_of_length hl hm hpath hnodup hmem (by omega)
  refine (Equations.mem_exit_sweep hl).mpr ⟨m, mem_live_successors.mpr hflow, ?_⟩
  rw [if_pos (before_of_ascents hm hpath hnodup (by omega) (by omega))]
  exact hentry

/-- After so many sweeps the equations of every node hold. -/
theorem settledAt_after {k : Nat} (hk : 1 ≤ k)
    (hnodes : (Equations.live flows kill gen labels).order.length ≤ k + 1) {l : Label}
    (hl : l ∈ (Equations.live flows kill gen labels).nodes) :
    (Equations.live flows kill gen labels).SettledAt (k + 1)
      ((Equations.live flows kill gen labels).after (k + 1)) l := by
  have hkeyed : (Equations.live flows kill gen labels).Keyed
      ((Equations.live flows kill gen labels).after (k + 1)) :=
    Equations.after_induction (Equations.keyed_start _)
      (fun sweeps _ h _ hnode => h.visit sweeps hnode) (k + 1)
  have hexit : ((Equations.live flows kill gen labels).after (k + 1)).exit.get l =
      (Equations.live flows kill gen labels).exitOf
        ((Equations.live flows kill gen labels).after (k + 1)) l := by
    ext x
    rw [Equations.mem_exitOf]
    constructor
    · intro hx
      obtain ⟨m, hsucc, hentry⟩ := (Equations.mem_exit_sweep hl).mp hx
      have hm : m ∈ (Equations.live flows kill gen labels).nodes :=
        mem_live_nodes.mpr (Or.inr ⟨l, Or.inr (mem_live_successors.mp hsucc)⟩)
      refine ⟨m, hsucc, ?_⟩
      split at hentry
      · exact hentry
      · exact (mem_entry_after_iff hnodes hm).mpr (readAhead_of_mem_entry_after hm hentry)
    · rintro ⟨m, hsucc, hx⟩
      have hflow := mem_live_successors.mp hsucc
      have hm : m ∈ (Equations.live flows kill gen labels).nodes :=
        mem_live_nodes.mpr (Or.inr ⟨l, Or.inr hflow⟩)
      exact mem_exit_after_of_readAhead hk hnodes hl hflow (readAhead_of_mem_entry_after hm hx)
  have hmem := Equations.mem_order.mpr hl
  refine ⟨?_, ?_⟩
  · rw [Table.get?_of_mem_keys (hkeyed.2 ▸ hmem), hexit]
  · rw [Table.get?_of_mem_keys (hkeyed.1 ▸ hmem), ← hexit]
    exact congrArg some (Equations.entry_sweep hl)

/-- **The number of sweeps.**  Live variables over `n` nodes are found within `n + 1` sweeps, or
three if there is only one node. -/
theorem liveVariables_returns {cap : Int}
    (hcap : max ((Equations.live flows kill gen labels).order.length + 1) 3 ≤ cap) :
    ∃ sol, liveVariables flows kill gen labels cap = .ok sol ∧
      sol.passes ≤ max ((Equations.live flows kill gen labels).order.length + 1) 3 := by
  obtain ⟨k, hk⟩ : ∃ k, max ((Equations.live flows kill gen labels).order.length + 1) 3 = k + 2 :=
    ⟨_, (Nat.sub_add_cancel (by omega)).symm⟩
  have hfix : (Equations.live flows kill gen labels).after (k + 1 + 1) =
      (Equations.live flows kill gen labels).after (k + 1) :=
    Equations.sweep_eq_self fun l hl =>
      settledAt_after (by omega) (by omega) (Equations.mem_order.mp hl)
  obtain ⟨q, hq, hidle⟩ := Equations.exists_firstIdle hfix
  rw [hk]
  exact ⟨_, hidle.iterate_ok (Nat.zero_le q) (by omega), Nat.succ_le_succ hq⟩

end Live

end Liveness
