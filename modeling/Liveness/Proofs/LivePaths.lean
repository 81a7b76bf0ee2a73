/-
Liveness/Proofs/LivePaths.lean

Live variables are what paths say.  A name is live at the entry of a label if
some path along the edges leads from there to a label that reads it and no label
on the way, the last one left out, writes it (`ReadAhead`).  The solver never
looks at a path; it sweeps until nothing changes.

That nothing is live without a path is `solve_entry_sound` for the set of names
that are read ahead, which is closed under the equations.  That every path is
seen is an induction along the path, backwards from the read, at each step of
which the equations of the label are used.
-/
import Liveness.Dataflow.Live
import Liveness.Proofs.Sweeps

namespace Liveness

/-! ### Paths -/

/-- `FlowPath flows first passed last`: a path along the edges from `first` to `last` that goes
through the labels `passed`, in this order, before it comes to `last`. -/
inductive FlowPath (flows : List Flow) : Label → List Label → Label → Prop
  | here (label : Label) : FlowPath flows label [] label
  | step {first next last : Label} {passed : List Label} :
      (first, next) ∈ flows → FlowPath flows next passed last →
      FlowPath flows first (first :: passed) last

/-- Some path from a label comes to a read of `x` before it goes through a write of `x`. -/
def ReadAhead (flows : List Flow) (kill gen : Table Label) (x : String) (label : Label) : Prop :=
  ∃ passed last, FlowPath flows label passed last ∧ x ∈ gen.get last ∧
    ∀ l ∈ passed, x ∉ kill.get l

variable {flows : List Flow} {kill gen : Table Label} {labels : List Label}

theorem readAhead_of_mem_gen {x : String} {label : Label} (h : x ∈ gen.get label) :
    ReadAhead flows kill gen x label :=
  ⟨[], label, .here label, h, fun _ hm => absurd hm List.not_mem_nil⟩

/-- A name that is read ahead is read ahead of every label before that does not write it. -/
theorem ReadAhead.before {x : String} {label next : Label} (h : ReadAhead flows kill gen x next)
    (hflow : (label, next) ∈ flows) (hkill : x ∉ kill.get label) :
    ReadAhead flows kill gen x label := by
  obtain ⟨passed, last, hpath, hgen, hpassed⟩ := h
  refine ⟨label :: passed, last, .step hflow hpath, hgen, ?_⟩
  intro l hl
  rcases List.mem_cons.mp hl with rfl | hl
  · exact hkill
  · exact hpassed l hl

/-- More edges, more paths. -/
theorem FlowPath.mono {flows' : List Flow} (hsub : ∀ f ∈ flows, f ∈ flows') {first last : Label}
    {passed : List Label} (h : FlowPath flows first passed last) :
    FlowPath flows' first passed last := by
  induction h with
  | here label => exact .here label
  | step hflow _ ih => exact .step (hsub _ hflow) ih

theorem FlowPath.trans {first middle last : Label} {passed more : List Label}
    (h : FlowPath flows first passed middle) (h' : FlowPath flows middle more last) :
    FlowPath flows first (passed ++ more) last := by
  induction h with
  | here label => exact h'
  | step hflow _ ih => exact .step hflow (ih h')

theorem FlowGraph.mem_labels_of_flow {g : FlowGraph} {l m : Label}
    (h : (l, m) ∈ g.flows ∨ (m, l) ∈ g.flows) : l ∈ g.labels := by
  rw [labels, mem_unique, List.mem_append, List.mem_append, List.mem_flatMap]
  refine Or.inl (Or.inr ?_)
  rcases h with h | h
  · exact ⟨_, h, by simp⟩
  · exact ⟨_, h, by simp⟩

/-- A path from a label of a graph stays among its labels. -/
theorem FlowPath.mem_labels {g : FlowGraph} {first last : Label} {passed : List Label}
    (h : FlowPath g.flows first passed last) (hfirst : first ∈ g.labels) : last ∈ g.labels := by
  induction h with
  | here label => exact hfirst
  | step hflow _ ih => exact ih (FlowGraph.mem_labels_of_flow (Or.inr hflow))

theorem ReadAhead.mono {flows' : List Flow} (hsub : ∀ f ∈ flows, f ∈ flows') {x : String}
    {label : Label} (h : ReadAhead flows kill gen x label) :
    ReadAhead flows' kill gen x label := by
  obtain ⟨passed, last, hpath, hread⟩ := h
  exact ⟨passed, last, hpath.mono hsub, hread⟩

/-! ### The equations of live variables -/

theorem mem_live_nodes {label : Label} :
    label ∈ (Equations.live flows kill gen labels).nodes ↔
      label ∈ labels ∨ ∃ other, (label, other) ∈ flows ∨ (other, label) ∈ flows := by
  show label ∈ labels ++ _ ↔ _
  rw [List.mem_append, List.mem_flatMap]
  refine or_congr Iff.rfl ⟨?_, ?_⟩
  · rintro ⟨⟨a, b⟩, hflow, hm⟩
    simp only [List.mem_cons, List.not_mem_nil, or_false] at hm
    rcases hm with rfl | rfl
    · exact ⟨b, Or.inl hflow⟩
    · exact ⟨a, Or.inr hflow⟩
  · rintro ⟨other, hflow | hflow⟩
    · exact ⟨_, hflow, by simp⟩
    · exact ⟨_, hflow, by simp⟩

/-- The equations of a graph are about its labels. -/
theorem FlowGraph.mem_live_nodes (g : FlowGraph) {label : Label} :
    label ∈ (Equations.live g.flows kill gen g.labels).nodes ↔ label ∈ g.labels := by
  rw [Liveness.mem_live_nodes]
  constructor
  · rintro (hl | ⟨other, hflow⟩)
    · exact hl
    · exact FlowGraph.mem_labels_of_flow hflow
  · exact Or.inl

theorem mem_live_successors {label next : Label} :
    next ∈ (Equations.live flows kill gen labels).successors label ↔ (label, next) ∈ flows := by
  show next ∈ flows.filterMap _ ↔ _
  rw [List.mem_filterMap]
  constructor
  · rintro ⟨⟨a, b⟩, hflow, hif⟩
    dsimp only at hif
    by_cases ha : a = label
    · rw [if_pos ha] at hif
      rw [← ha, ← Option.some.inj hif]
      exact hflow
    · rw [if_neg ha] at hif
      cases hif
  · intro hflow
    exact ⟨(label, next), hflow, if_pos rfl⟩

theorem mem_live_transfer {sweeps : Nat} {label : Label} {out : NameSet} {x : String} :
    x ∈ (Equations.live flows kill gen labels).transfer sweeps label out ↔
      (x ∈ out ∧ x ∉ kill.get label) ∨ x ∈ gen.get label := by
  show x ∈ (out \ kill.get label) ∪ gen.get label ↔ _
  rw [NameSet.mem_union, NameSet.mem_sdiff]

/-! ### Solutions and paths -/

variable {cap : Int} {sol : Solution Label}

/-- The exit set of a node holds what the entry sets of the labels after it hold. -/
theorem mem_exit_iff (hrun : liveVariables flows kill gen labels cap = .ok sol) {label : Label}
    (hnode : label ∈ (Equations.live flows kill gen labels).nodes) {x : String} :
    x ∈ sol.facts.exit.get label ↔
      ∃ next, (label, next) ∈ flows ∧ x ∈ sol.facts.entry.get next := by
  obtain ⟨last, hlast⟩ := Equations.solve_settled hrun
  rw [Table.get_of_get? (hlast label hnode).1, Equations.mem_exitOf]
  simp only [mem_live_successors]

/-- Nothing is live without a path. -/
theorem readAhead_of_mem_entry (hrun : liveVariables flows kill gen labels cap = .ok sol)
    {label : Label} {x : String} (hx : x ∈ sol.facts.entry.get label) :
    ReadAhead flows kill gen x label := by
  refine Equations.solve_entry_sound (S := fun l x => ReadAhead flows kill gen x l) ?_ hrun hx
  intro sweeps label _ out hout x hx
  rcases mem_live_transfer.mp hx with ⟨hxout, hkill⟩ | hgen
  · obtain ⟨next, hnext, hahead⟩ := hout x hxout
    exact hahead.before (mem_live_successors.mp hnext) hkill
  · exact readAhead_of_mem_gen hgen

/-- Every path is seen. -/
theorem mem_entry_of_readAhead (hrun : liveVariables flows kill gen labels cap = .ok sol)
    {label : Label} (hnode : label ∈ (Equations.live flows kill gen labels).nodes) {x : String}
    (hx : ReadAhead flows kill gen x label) : x ∈ sol.facts.entry.get label := by
  obtain ⟨last, hlast⟩ := Equations.solve_settled hrun
  obtain ⟨passed, reader, hpath, hgen, hpassed⟩ := hx
  induction hpath with
  | here label =>
    rw [Table.get_of_get? (hlast label hnode).2]
    exact mem_live_transfer.mpr (Or.inr hgen)
  | @step first next reader passed hflow _ ih =>
    -- the label after `first` is on an edge, so it is a node too
    have hnext : next ∈ (Equations.live flows kill gen labels).nodes :=
      mem_live_nodes.mpr (Or.inr ⟨first, Or.inr hflow⟩)
    have hlive := ih hnext hgen fun l hl => hpassed l (List.mem_cons_of_mem _ hl)
    rw [Table.get_of_get? (hlast first hnode).2]
    refine mem_live_transfer.mpr (Or.inl ⟨?_, hpassed first List.mem_cons_self⟩)
    exact Equations.mem_exitOf.mpr ⟨next, mem_live_successors.mpr hflow, hlive⟩

theorem mem_entry_iff (hrun : liveVariables flows kill gen labels cap = .ok sol) {label : Label}
    (hnode : label ∈ (Equations.live flows kill gen labels).nodes) {x : String} :
    x ∈ sol.facts.entry.get label ↔ ReadAhead flows kill gen x label :=
  ⟨readAhead_of_mem_entry hrun, mem_entry_of_readAhead hrun hnode⟩

/-- A name is live at the exit of a node if it is read ahead of a label after it. -/
theorem mem_exit_iff_readAhead (hrun : liveVariables flows kill gen labels cap = .ok sol)
    {label : Label} (hnode : label ∈ (Equations.live flows kill gen labels).nodes) {x : String} :
    x ∈ sol.facts.exit.get label ↔
      ∃ next, (label, next) ∈ flows ∧ ReadAhead flows kill gen x next := by
  rw [mem_exit_iff hrun hnode]
  refine exists_congr fun next => and_congr_right fun hflow => mem_entry_iff hrun ?_
  exact mem_live_nodes.mpr (Or.inr ⟨label, Or.inr hflow⟩)

theorem mem_entry_keys (hrun : liveVariables flows kill gen labels cap = .ok sol)
    {label : Label} :
    label ∈ sol.facts.entry.keys ↔ label ∈ (Equations.live flows kill gen labels).nodes := by
  rw [(Equations.solve_keys hrun).1]
  exact Equations.mem_order

theorem mem_exit_keys (hrun : liveVariables flows kill gen labels cap = .ok sol)
    {label : Label} :
    label ∈ sol.facts.exit.keys ↔ label ∈ (Equations.live flows kill gen labels).nodes := by
  rw [(Equations.solve_keys hrun).2]
  exact Equations.mem_order

/-- The sets depend on which edges and labels there are, not on how they are listed. -/
theorem get?_eq_of_same_edges {flows' : List Flow} {labels' : List Label} {cap' : Int}
    {sol' : Solution Label} (hrun : liveVariables flows kill gen labels cap = .ok sol)
    (hrun' : liveVariables flows' kill gen labels' cap' = .ok sol')
    (hflows : ∀ f, f ∈ flows' ↔ f ∈ flows) (hlabels : ∀ l, l ∈ labels' ↔ l ∈ labels)
    (label : Label) :
    sol'.facts.entry.get? label = sol.facts.entry.get? label ∧
      sol'.facts.exit.get? label = sol.facts.exit.get? label := by
  have hnodes : ∀ l, l ∈ (Equations.live flows' kill gen labels').nodes ↔
      l ∈ (Equations.live flows kill gen labels).nodes := by
    intro l
    simp only [mem_live_nodes, hflows, hlabels]
  have hahead : ∀ l x, ReadAhead flows' kill gen x l ↔ ReadAhead flows kill gen x l := by
    intro l x
    constructor
    · exact fun h => h.mono fun f hf => (hflows f).mp hf
    · exact fun h => h.mono fun f hf => (hflows f).mpr hf
  constructor
  · refine Table.get?_congr ?_ ?_
    · rw [mem_entry_keys hrun', mem_entry_keys hrun, hnodes]
    · intro hkey x
      have hnode := (mem_entry_keys hrun').mp hkey
      rw [mem_entry_iff hrun' hnode, mem_entry_iff hrun ((hnodes label).mp hnode), hahead]
  · refine Table.get?_congr ?_ ?_
    · rw [mem_exit_keys hrun', mem_exit_keys hrun, hnodes]
    · intro hkey x
      have hnode := (mem_exit_keys hrun').mp hkey
      rw [mem_exit_iff_readAhead hrun' hnode,
        mem_exit_iff_readAhead hrun ((hnodes label).mp hnode)]
      simp only [hflows, hahead]

/-! ### The meet over all paths -/

/-- **Live variables are the meet over all paths.**  Whatever the edges, the reads and writes, the
labels given and the cap, if the equations are solved at all then both tables are about the labels
given and those on edges, an entry set holds the names that are read ahead, an exit set holds what
the entry sets after it hold, and the same edges and labels in another order, or listed more than
once, have the same sets. -/
theorem liveVariables_meetOverPaths (flows : List Flow) (kill gen : Table Label)
    (labels : List Label) (cap : Int) (sol : Solution Label)
    (hrun : liveVariables flows kill gen labels cap = .ok sol) :
    (∀ l, l ∈ sol.facts.entry.keys ↔
        l ∈ labels ∨ ∃ m, (l, m) ∈ flows ∨ (m, l) ∈ flows) ∧
      (∀ l, l ∈ sol.facts.exit.keys ↔
        l ∈ labels ∨ ∃ m, (l, m) ∈ flows ∨ (m, l) ∈ flows) ∧
      (∀ l ∈ sol.facts.entry.keys, ∀ x,
        x ∈ sol.facts.entry.get l ↔
          ∃ passed last, FlowPath flows l passed last ∧ x ∈ gen.get last ∧
            ∀ m ∈ passed, x ∉ kill.get m) ∧
      (∀ l ∈ sol.facts.exit.keys, ∀ x,
        x ∈ sol.facts.exit.get l ↔ ∃ m, (l, m) ∈ flows ∧ x ∈ sol.facts.entry.get m) ∧
      (∀ flows' labels' cap' sol', (∀ f, f ∈ flows' ↔ f ∈ flows) →
        (∀ l, l ∈ labels' ↔ l ∈ labels) →
        liveVariables flows' kill gen labels' cap' = .ok sol' →
        ∀ l, sol'.facts.entry.get? l = sol.facts.entry.get? l ∧
          sol'.facts.exit.get? l = sol.facts.exit.get? l) := by
  refine ⟨?_, ?_, ?_, ?_, ?_⟩
  · intro l
    rw [mem_entry_keys hrun, mem_live_nodes]
  · intro l
    rw [mem_exit_keys hrun, mem_live_nodes]
  · intro l hl x
    exact mem_entry_iff hrun ((mem_entry_keys hrun).mp hl)
  · intro l hl x
    exact mem_exit_iff hrun ((mem_exit_keys hrun).mp hl)
  · intro flows' labels' cap' sol' hflows hlabels hrun' l
    exact get?_eq_of_same_edges hrun hrun' hflows hlabels l

/-- A loop `2 → 3 → 2` after a write at `1` and before a read at `4`: the name is live inside the
loop, by a path that goes once around, and not before the write. -/
theorem liveVariables_around_a_loop :
    ∃ sol, liveVariables [(1, 2), (2, 3), (3, 2), (2, 4)] ⟨[(1, .ofList ["x"])]⟩
        ⟨[(4, .ofList ["x"])]⟩ [] 10 = .ok sol ∧ "x" ∈ sol.facts.entry.get 3 := by
  have hok : (liveVariables [(1, 2), (2, 3), (3, 2), (2, 4)] ⟨[(1, .ofList ["x"])]⟩
      ⟨[(4, .ofList ["x"])]⟩ [] 10).isOk = true := by decide +kernel
  rcases hrun : liveVariables [(1, 2), (2, 3), (3, 2), (2, 4)] ⟨[(1, .ofList ["x"])]⟩
      ⟨[(4, .ofList ["x"])]⟩ [] 10 with d | sol
  · rw [hrun] at hok
    cases hok
  · refine ⟨sol, rfl, ?_⟩
    obtain ⟨hkeys, -, hentry, -, -⟩ := liveVariables_meetOverPaths _ _ _ _ _ _ hrun
    refine (hentry 3 ((hkeys 3).mpr (Or.inr ⟨2, by decide⟩)) "x").mpr ?_
    refine ⟨[3, 2], 4, .step (by decide) (.step (by decide) (.here 4)), ?_, ?_⟩
    · decide +kernel
    · decide +kernel

end Liveness
