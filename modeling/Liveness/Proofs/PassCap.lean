/-
Liveness/Proofs/PassCap.lean

What the cap on sweeps excludes.  A program whose graph has fewer labels than the
cap allows sweeps is always analysed (`Program.live_returns`).  This cannot be
improved: in `a;a;…a;y=x`, where every statement leads to the one after it and
only the last one reads a variable, the sweeps go forward and the variable comes
back by one label a sweep.  With as many labels as sweeps, every one of them
changes something, and the analysis fails (`straight_live`).

So the number of labels decides which programs are sure to be analysed, and the
default cap of 10000 sweeps is reached by a program of 10000 statements.
-/
import Liveness.Proofs.Passes
import Liveness.Proofs.Recorded

namespace Liveness

/-! ### Nodes of a graph -/

section Unique

variable {α : Type} [DecidableEq α]

theorem unique_append (xs ys : List α) :
    unique (xs ++ ys) = unique xs ++ (unique ys).filter (· ∉ xs) := by
  induction xs with
  | nil => simp [unique]
  | cons x xs ih =>
    rw [List.cons_append, unique, ih, unique, List.filter_append, List.filter_filter]
    simp

/-- What is there already is not listed again. -/
theorem unique_append_of_subset {xs ys : List α} (h : ∀ y ∈ ys, y ∈ xs) :
    unique (xs ++ ys) = unique xs := by
  have hnone : (unique ys).filter (· ∉ xs) = [] :=
    List.filter_eq_nil_iff.mpr fun y hy => by simpa using h y (mem_unique.mp hy)
  rw [unique_append, hnone, List.append_nil]

end Unique

/-- The labels of a graph are visited in their order. -/
theorem FlowGraph.live_order (g : FlowGraph) (kill gen : Table Label) :
    (Equations.live g.flows kill gen g.labels).order = g.labels := by
  have hnodes : ∀ l ∈ (Equations.live g.flows kill gen g.labels).nodes, l ∈ g.labels :=
    fun _ hl => g.mem_live_nodes.mp hl
  show unique (g.labels ++ _) = g.labels
  rw [unique_append_of_subset fun l hl => hnodes l (List.mem_append_right _ hl)]
  exact unique_eq_self (nodup_unique _)

/-- A program with fewer labels than the cap allows sweeps has live variables. -/
theorem Program.live_returns (p : Program) (config : Config) (hcap : 3 ≤ config.maxPasses)
    (hlabels : p.graph.labels.length < config.maxPasses) : ∃ sol, p.live config = .ok sol := by
  rw [Program.live]
  refine (liveVariables_returns ?_).imp fun _ h => h.1
  rw [p.graph.live_order]
  omega

/-! ### Chains of labels -/

/-- Statements that run one after another make a chain. -/
theorem Stmt.sequence_steps {ss : List Stmt} (hss : ∀ s ∈ ss, s.fragment = .step s.offset)
    {f : Fragment} {entry l : Label} (hinitial : f.initial = some entry) (hfinals : f.finals = [l])
    (hexit : f.reachesExit = true) :
    (Stmt.sequence f ss).initial = some entry ∧
      (Stmt.sequence f ss).finals = [(ss.map Stmt.offset).getLastD l] ∧
      (Stmt.sequence f ss).flows =
        f.flows ++ (l :: ss.map Stmt.offset).zip (ss.map Stmt.offset) := by
  induction ss generalizing f l with
  | nil => exact ⟨hinitial, hfinals, by simp [Stmt.sequence]⟩
  | cons s rest ih =>
    have hstep := hss s List.mem_cons_self
    have hnext : (f.andThen s.offset s.fragment).initial = some entry := by
      rw [hstep]
      simp [Fragment.andThen, Fragment.step, hinitial]
    obtain ⟨hi, hf, hw⟩ := ih (fun r hr => hss r (List.mem_cons_of_mem s hr)) hnext
      (l := s.offset) (by rw [hstep]; rfl) (by rw [hstep]; rfl)
    rw [Stmt.sequence, if_pos hexit]
    refine ⟨hi, ?_, ?_⟩
    · rw [hf, List.map_cons, List.getLastD_cons]
    · rw [hw, hstep]
      simp [Fragment.andThen, Fragment.step, hfinals]

/-- The labels of a chain are those it goes through, in order. -/
theorem FlowGraph.labels_chain {l : Label} {ls : List Label} (h : (l :: ls).Nodup) :
    FlowGraph.labels ⟨(l :: ls).zip ls, some l, [ls.getLastD l]⟩ = l :: ls := by
  induction ls generalizing l with
  | nil => simp [FlowGraph.labels, unique]
  | cons m rest ih =>
    obtain ⟨hl, hrest⟩ := List.nodup_cons.mp h
    have hlater := ih hrest
    rw [FlowGraph.labels] at hlater ⊢
    simp only [Option.toList_some, List.zip_cons_cons, List.flatMap_cons, List.cons_append,
      List.nil_append, List.getLastD_cons] at hlater ⊢
    have hkept : (m :: rest).filter (· ≠ l) = m :: rest :=
      List.filter_eq_self.mpr fun a ha => by
        have hne : a ≠ l := fun he => hl (he ▸ ha)
        simpa using hne
    rw [unique, unique, hlater, hkept]
    simpa using hkept

/-- A program of such statements has a chain as its graph. -/
theorem Program.graph_of_steps {p : Program} (hsteps : ∀ s ∈ p.body, s.fragment = .step s.offset)
    {l : Label} {ls : List Label} (hoffsets : p.body.map Stmt.offset = l :: ls) :
    p.graph = ⟨(l :: ls).zip ls, some l, [ls.getLastD l]⟩ := by
  obtain ⟨s, rest, hbody, rfl, rfl⟩ := List.map_eq_cons_iff.mp hoffsets
  rw [hbody] at hsteps
  have hstep := hsteps s List.mem_cons_self
  have hfragment : p.block.fragment =
      Stmt.sequence (Fragment.andThen .empty s.offset s.fragment) rest := by
    rw [Program.block, hbody, Block.fragment, Stmt.sequence]
    rfl
  rw [hstep] at hfragment
  have hfirst : (Fragment.andThen .empty s.offset (.step s.offset)).initial = some s.offset := rfl
  obtain ⟨hinitial, hfinals, hflows⟩ := Stmt.sequence_steps
    (fun r hr => hsteps r (List.mem_cons_of_mem s hr)) hfirst rfl rfl
  rw [Program.graph, hfragment]
  simp only [hinitial, hfinals, hflows]
  rfl

/-- Statements with different points have labels. -/
theorem Stmt.exists_labelsFrom {ss : List Stmt} {seen : List (Label × Json)}
    (h : (seen.map (·.1) ++ ss.filterMap Stmt.point?).Nodup) :
    ∃ labels, Stmt.labelsFrom seen ss = .ok labels := by
  induction ss generalizing seen with
  | nil => exact ⟨seen, rfl⟩
  | cons s rest ih =>
    rw [Stmt.labelsFrom]
    rcases hpoint : s.point? with - | label
    · rw [List.filterMap_cons_none hpoint] at h
      exact ih h
    · rw [List.filterMap_cons_some hpoint] at h
      have hfresh : seen.lookup label = none := by
        refine List.lookup_eq_none_iff.mpr fun row hrow => ?_
        have hdisjoint := List.disjoint_of_nodup_append h (List.mem_map_of_mem hrow)
        have hne : label ≠ row.1 := fun he => hdisjoint (he ▸ List.mem_cons_self)
        simpa using hne
      simp only [hfresh]
      exact ih (by simpa using h)

/-! ### Straight programs -/

/-- `a;a;…a;y=x` with `n` statements before the last one. -/
def straight (n : Nat) : Program where
  offset := 0
  body := (List.range n).map (fun i : Nat => .exprStmt (2 * i) (.identifier (2 * i) "a")) ++
    [.exprStmt (2 * n) (.assignment (2 * n) (.str "=") (.identifier (2 * n) "y")
      (.identifier (2 * n + 2) "x"))]

/-- The labels of a straight program after its first one. -/
def straightLabels (n : Nat) : List Label :=
  (List.range n).map fun i : Nat => 2 * (i : Int) + 2

section Straight

variable (n : Nat)

theorem straight_offsets : (straight n).body.map Stmt.offset = 0 :: straightLabels n := by
  have hall : (straight n).body.map Stmt.offset =
      (List.range (n + 1)).map fun i : Nat => (2 * i : Int) := by
    rw [List.range_succ]
    simp [straight, Function.comp_def, Stmt.offset]
  rw [hall, List.range_succ_eq_map, List.map_cons, List.map_map, straightLabels]
  refine congrArg _ (List.map_congr_left fun i _ => ?_)
  show 2 * ((i + 1 : Nat) : Int) = 2 * i + 2
  omega

/-- Every statement of a straight program is an expression. -/
theorem straight_body {s : Stmt} (h : s ∈ (straight n).body) : ∃ o e, s = .exprStmt o e := by
  rcases List.mem_append.mp h with h | h
  · obtain ⟨i, -, rfl⟩ := List.mem_map.mp h
    exact ⟨_, _, rfl⟩
  · exact ⟨_, _, List.mem_singleton.mp h⟩

theorem straight_graph : (straight n).graph =
    ⟨(0 :: straightLabels n).zip (straightLabels n), some 0, [(straightLabels n).getLastD 0]⟩ := by
  refine Program.graph_of_steps (fun s hs => ?_) (straight_offsets n)
  obtain ⟨o, e, rfl⟩ := straight_body n hs
  rfl

theorem straight_sorted : (0 :: straightLabels n).Pairwise (· < ·) := by
  refine List.pairwise_cons.mpr ⟨fun l hl => ?_, ?_⟩
  · obtain ⟨i, -, rfl⟩ := List.mem_map.mp hl
    show (0 : Int) < 2 * i + 2
    omega
  · refine List.pairwise_map.mpr (List.pairwise_lt_range.imp fun {i j} hij => ?_)
    show (2 * i + 2 : Int) < 2 * j + 2
    omega

theorem straight_graph_labels : (straight n).graph.labels = 0 :: straightLabels n := by
  rw [straight_graph]
  exact FlowGraph.labels_chain ((straight_sorted n).imp Int.ne_of_lt)

/-- Every label leads to the one two characters later. -/
theorem straight_flows :
    (straight n).graph.flows = (List.range n).map fun i : Nat => ((2 * i : Int), (2 * i + 2 : Int)) := by
  rw [straight_graph]
  refine List.ext_getElem (by simp [straightLabels]) fun i h h' => ?_
  cases i with
  | zero => simp [straightLabels]
  | succ i =>
    simp only [List.getElem_zip, List.getElem_cons_succ, straightLabels, List.getElem_map,
      List.getElem_range, Prod.mk.injEq, and_true]
    show 2 * (i : Int) + 2 = 2 * (i + 1 : Nat)
    omega

theorem straight_statements : (straight n).statements = (straight n).body := by
  have hflat : ∀ ss : List Stmt, (∀ s ∈ ss, ∃ o e, s = .exprStmt o e) → Stmt.flatten ss = ss := by
    intro ss
    induction ss with
    | nil => exact fun _ => rfl
    | cons s rest ih =>
      intro h
      obtain ⟨o, e, rfl⟩ := h s List.mem_cons_self
      rw [Stmt.flatten, ih fun r hr => h r (List.mem_cons_of_mem _ hr)]
      rfl
  exact hflat _ fun s hs => straight_body n hs

theorem straight_labels : ∃ labels, (straight n).labels = .ok labels := by
  refine Stmt.exists_labelsFrom ?_
  have hpoints : (straight n).body.filterMap Stmt.point? = (straight n).body.map Stmt.offset := by
    rw [← List.filterMap_eq_map]
    refine List.filterMap_congr fun s hs => ?_
    obtain ⟨o, e, rfl⟩ := straight_body n hs
    rfl
  rw [straight_statements, hpoints, straight_offsets]
  exact (straight_sorted n).imp Int.ne_of_lt

/-- Only the last statement reads or writes. -/
theorem straight_accesses {observers : List (Option String)} {s : Stmt} {a : Access}
    (hs : s ∈ (straight n).statements) (ha : a ∈ s.accesses observers) :
    a = ⟨2 * n, ["x"], ["y"]⟩ := by
  rw [straight_statements] at hs
  rcases List.mem_append.mp hs with hs | hs
  · obtain ⟨i, -, rfl⟩ := List.mem_map.mp hs
    simp [Stmt.accesses, Expr.accesses, Expr.subexpressions, Expr.access?] at ha
  · rw [List.mem_singleton.mp hs] at ha
    simpa [Stmt.accesses, Expr.accesses, Expr.subexpressions, Expr.access?, Expr.names,
      Json.isText] using ha

theorem mem_straight_gen (observers : List (Option String)) {l : Label} :
    "x" ∈ ((straight n).allEffects observers).gen.get l ↔ l = 2 * n := by
  rw [Program.mem_gen_allEffects]
  constructor
  · rintro ⟨s, hs, a, ha, rfl, -⟩
    rw [straight_accesses n hs ha]
  · rintro rfl
    have hlast : _ ∈ (straight n).body := List.mem_append_right _ (List.mem_singleton_self _)
    rw [← straight_statements] at hlast
    exact ⟨_, hlast, ⟨2 * n, ["x"], ["y"]⟩, List.mem_cons_self, rfl, List.mem_cons_self⟩

theorem not_mem_straight_kill (observers : List (Option String)) (l : Label) :
    "x" ∉ ((straight n).allEffects observers).kill.get l := by
  rw [Program.mem_kill_allEffects]
  rintro ⟨s, hs, a, ha, -, hx⟩
  rw [straight_accesses n hs ha] at hx
  exact absurd hx (by simp)

theorem mem_straight_flows {l m : Int} :
    (l, m) ∈ (straight n).graph.flows ↔ ∃ i : Nat, i < n ∧ l = 2 * i ∧ m = 2 * i + 2 := by
  rw [straight_flows, List.mem_map]
  constructor
  · rintro ⟨i, hi, he⟩
    obtain ⟨rfl, rfl⟩ := Prod.mk.inj he
    exact ⟨i, List.mem_range.mp hi, rfl, rfl⟩
  · rintro ⟨i, hi, rfl, rfl⟩
    exact ⟨i, List.mem_range.mpr hi, rfl⟩

/-- A path along a straight program goes forward by two characters a step. -/
theorem straight_path {l last : Int} {passed : List Label}
    (h : FlowPath (straight n).graph.flows l passed last) : last = l + 2 * passed.length := by
  induction h with
  | here label => simp
  | @step first next last passed hflow _ ih =>
    obtain ⟨i, -, rfl, rfl⟩ := (mem_straight_flows n).mp hflow
    rw [ih, List.length_cons]
    show 2 * (i : Int) + 2 + 2 * passed.length = 2 * (i : Int) + 2 * (passed.length + 1 : Nat)
    omega

/-- From every label a path leads to the end. -/
theorem exists_straight_path {i d : Nat} (h : i + d = n) :
    ∃ passed, FlowPath (straight n).graph.flows (2 * i) passed (2 * n) ∧ passed.length = d := by
  induction d generalizing i with
  | zero =>
    obtain rfl : i = n := h
    exact ⟨[], .here _, rfl⟩
  | succ d ih =>
    obtain ⟨passed, hpath, hlength⟩ := ih (i := i + 1) (by omega)
    have hflow : ((2 * i : Int), (2 * (i + 1 : Nat) : Int)) ∈ (straight n).graph.flows :=
      (mem_straight_flows n).mpr ⟨i, by omega, rfl, by omega⟩
    exact ⟨_, .step hflow hpath, by rw [List.length_cons, hlength]⟩

end Straight

/-! ### Sweeps over a straight program -/

namespace Equations

/-- If the nodes are visited in increasing order, only smaller nodes are visited before. -/
theorem lt_of_before {eqs : Equations Label} (h : eqs.order.Pairwise (· < ·)) {m l : Label}
    (hl : l ∈ eqs.nodes) (hm : eqs.Before m l) : m < l := by
  have hidx : eqs.order.idxOf l < eqs.order.length :=
    List.idxOf_lt_length_iff.mpr (mem_order.mpr hl)
  have hlt := List.pairwise_iff_getElem.mp h _ _ (Nat.lt_trans hm hidx) hidx hm
  rwa [List.getElem_idxOf, List.getElem_idxOf] at hlt

end Equations

/-- A path that goes to larger labels only ascends if these are visited in increasing order. -/
theorem ascents_eq_length {flows : List Flow} {kill gen : Table Label} {labels : List Label}
    (hsorted : (Equations.live flows kill gen labels).order.Pairwise (· < ·))
    (hup : ∀ l m, (l, m) ∈ flows → l < m) {first last : Label} {passed : List Label}
    (h : FlowPath flows first passed last) :
    (Equations.live flows kill gen labels).ascents last passed = passed.length := by
  induction h with
  | here label => rfl
  | @step first next last passed hflow hrest ih =>
    have hnode : first ∈ (Equations.live flows kill gen labels).nodes :=
      mem_live_nodes.mpr (Or.inr ⟨next, Or.inl hflow⟩)
    have hascent : ¬ (Equations.live flows kill gen labels).Before next first := fun hb =>
      absurd (Equations.lt_of_before hsorted hnode hb) (Int.not_lt.mpr (Int.le_of_lt (hup _ _ hflow)))
    rw [Equations.ascents, hrest.headD, if_neg hascent, ih, List.length_cons, Nat.add_comm]

section Straight

variable (n : Nat) (config : Config)

/-- The equations of live variables of a straight program. -/
def straightEquations : Equations Label :=
  Equations.live (straight n).graph.flows ((straight n).allEffects config.calls).kill
    ((straight n).allEffects config.calls).gen (straight n).graph.labels

theorem straight_node {i : Nat} (hi : i ≤ n) : (2 * i : Int) ∈ (straightEquations n config).nodes := by
  refine (straight n).graph.mem_live_nodes.mpr ?_
  rw [straight_graph_labels]
  cases i with
  | zero => exact List.mem_cons_self
  | succ i =>
    refine List.mem_cons_of_mem 0 (List.mem_map.mpr ⟨i, List.mem_range.mpr hi, ?_⟩)
    show 2 * (i : Int) + 2 = 2 * (i + 1 : Nat)
    omega

theorem straight_ascents {l last : Label} {passed : List Label}
    (h : FlowPath (straight n).graph.flows l passed last) :
    (straightEquations n config).ascents last passed = passed.length := by
  have horder : (straightEquations n config).order = (straight n).graph.labels :=
    (straight n).graph.live_order _ _
  refine ascents_eq_length ?_ (fun l m hflow => ?_) h
  · show (straightEquations n config).order.Pairwise (· < ·)
    rw [horder, straight_graph_labels]
    exact straight_sorted n
  · obtain ⟨i, -, rfl, rfl⟩ := (mem_straight_flows n).mp hflow
    exact Int.lt_add_of_pos_right _ (by decide)

/-- After `k` sweeps the variable has come back to the last `k` labels. -/
theorem mem_straight_entry {i k : Nat} (hi : i ≤ n) :
    "x" ∈ ((straightEquations n config).after k).entry.get (2 * i) ↔ n < i + k := by
  constructor
  · intro hx
    obtain ⟨passed, last, hpath, hgen, -, hk⟩ :=
      exists_path_of_mem_entry_after (straight_node n config hi) hx
    have hend : (2 * n : Int) = 2 * i + 2 * passed.length := by
      rw [← (mem_straight_gen n config.calls).mp hgen]
      exact straight_path n hpath
    have hlength : passed.length < k := by
      rw [← straight_ascents n config hpath]
      exact hk
    omega
  · intro hk
    obtain ⟨passed, hpath, hlength⟩ := exists_straight_path n (Nat.add_sub_cancel' hi)
    refine mem_entry_after hpath ((mem_straight_gen n config.calls).mpr rfl)
      (fun l _ => not_mem_straight_kill n config.calls l) (straight_node n config hi) ?_
    show (straightEquations n config).ascents _ passed < k
    rw [straight_ascents n config hpath, hlength]
    omega

/-- A straight program with as many labels as the cap allows sweeps is not analysed. -/
theorem straight_live (hcap : config.maxPasses ≤ n + 1) :
    (straight n).live config = .error ⟨config.maxPasses.toNat⟩ := by
  have hrun : (straightEquations n config).iterate config.maxPasses.toNat 0
      ((straightEquations n config).after 0) = .error ⟨0 + config.maxPasses.toNat⟩ := by
    refine Equations.iterate_after_error fun k _ hk hsame => ?_
    -- the label that the variable comes to in this sweep
    have hback : n - k ≤ n := Nat.sub_le n k
    have hnew := (mem_straight_entry n config hback (k := k + 1)).mpr (by omega)
    rw [hsame] at hnew
    have hold := (mem_straight_entry n config hback).mp hnew
    omega
  rw [Nat.zero_add] at hrun
  exact hrun

theorem straight_analyze (hcap : config.maxPasses ≤ n + 1) :
    (straight n).analyze config = .error (.diverged ⟨config.maxPasses.toNat⟩) := by
  obtain ⟨labels, hlabels⟩ := straight_labels n
  rw [Program.analyze, hlabels, straight_live n config hcap]

theorem length_straight_graph_labels : (straight n).graph.labels.length = n + 1 := by
  rw [straight_graph_labels, List.length_cons, straightLabels, List.length_map, List.length_range]

end Straight

/-- **What a cap is enough for.**  Under a cap of at least three sweeps, all programs with `n` labels
that are accepted at all are analysed exactly if `n` is below the cap. -/
theorem analyzed_iff_fewer_labels (config : Config) (hcap : 3 ≤ config.maxPasses) (n : Nat) :
    (∀ p : Program, ∀ labels, p.labels = .ok labels → p.graph.labels.length = n →
      ∃ a, p.analyze config = .ok a) ↔ n < config.maxPasses := by
  constructor
  · intro h
    refine Int.not_le.mp fun hle => ?_
    obtain ⟨m, rfl⟩ : ∃ m, n = m + 1 := ⟨n - 1, by omega⟩
    obtain ⟨labels, hlabels⟩ := straight_labels m
    obtain ⟨a, ha⟩ := h (straight m) labels hlabels (length_straight_graph_labels m)
    rw [straight_analyze m config (by omega)] at ha
    cases ha
  · rintro h p labels hlabels rfl
    obtain ⟨sol, hsol⟩ := p.live_returns config hcap h
    rw [Program.analyze, hlabels, hsol]
    exact ⟨_, rfl⟩

/-- The default cap is enough for 9999 labels. -/
theorem default_cap_enough :
    3 ≤ Config.maxPasses {} ∧ ∀ p : Program, ∀ labels, p.labels = .ok labels →
      p.graph.labels.length = 9999 → ∃ a, p.analyze {} = .ok a :=
  ⟨by decide, (analyzed_iff_fewer_labels {} (by decide) 9999).mpr (by decide)⟩

/-- The default cap is not enough for 10000 labels: 9999 times `a;` and then `y=x` is a program
with labels and without an analysis. -/
theorem default_cap_reached :
    (∃ labels, (straight 9999).labels = .ok labels) ∧
      (straight 9999).graph.labels.length = 10000 ∧
      (straight 9999).analyze {} = .error (.diverged ⟨10000⟩) :=
  ⟨straight_labels 9999, length_straight_graph_labels 9999, straight_analyze 9999 {} (by decide)⟩

end Liveness
