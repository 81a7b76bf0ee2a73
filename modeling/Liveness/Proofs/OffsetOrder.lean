/-
Liveness/Proofs/OffsetOrder.lean

An analysis depends on the order of offsets and on nothing else about them.
Offsets play four parts in it: they are the labels of the graph, the keys of the
tables, what is compared at the cut of a guarded block, and what findings are
sorted by.  A strictly increasing map keeps all four apart as they were, so it
commutes with every stage, and the analysis of the relabelled program is the
analysis of the program, relabelled (`Program.analyze_relabel`).
-/
import Liveness.Proofs.DeadAssignments
import Liveness.Proofs.Relabelling

namespace Liveness

/-! ### Sorting -/

/-- Sorting commutes with a map that keeps the order of the keys. -/
theorem Sorting.byKey_map {α β : Type} (key : α → Int) (key' : β → Int) {g : α → β}
    (h : ∀ a b, key' (g a) < key' (g b) ↔ key a < key b) (xs : List α) :
    byKey key' (xs.map g) = (byKey key xs).map g := by
  have hinsert : ∀ x (ys : List α), insertBy (fun a b => decide (key' a < key' b)) (g x) (ys.map g) =
      (insertBy (fun a b => decide (key a < key b)) x ys).map g := by
    intro x ys
    induction ys with
    | nil => rfl
    | cons y ys ih =>
      simp only [List.map_cons, insertBy, h, ih]
      split <;> rfl
  induction xs with
  | nil => rfl
  | cons x xs ih =>
    show insertBy _ (g x) (byKey key' (xs.map g)) = _
    rw [ih, hinsert]
    rfl

/-! ### Reads and writes -/

/-- The reads and the writes of other labels. -/
def Effects.relabel (f : Label → Label) (e : Effects) : Effects where
  gen := e.gen.rename f
  kill := e.kill.rename f

/-- A flow graph over other labels. -/
def FlowGraph.relabel (f : Label → Label) (g : FlowGraph) : FlowGraph where
  flows := g.flows.map (Prod.map f f)
  initial := g.initial.map f
  finals := g.finals.map f

/-- A finding at another offset. -/
def Finding.relabel (f : Int → Int) (d : Finding) : Finding :=
  { d with offset := f d.offset }

theorem Event.finding?_relabel (f : Int → Int) (e : Event) :
    (e.relabel f).finding? = e.finding?.map (Finding.relabel f) := by
  cases e <;> rfl

section Stages

variable {f : Int → Int} (hf : KeepsOrder f)
include hf

theorem Effects.record_relabel (e : Effects) (a : Access) :
    (e.relabel f).record (a.relabel f) = (e.record a).relabel f := by
  have happart : ∀ t : Table Label, ∀ k ∈ t.keys, f k = f a.label → k = a.label :=
    fun _ _ _ he => hf.eq_iff.mp he
  show Effects.mk ((e.gen.rename f).add (f a.label) _) ((e.kill.rename f).add (f a.label) _) = _
  rw [Table.add_rename _ (happart e.gen), Table.add_rename _ (happart e.kill)]
  rfl

/-- Effects that are recorded one after another. -/
theorem Effects.foldl_record_relabel {α β : Type} (access : α → Access) (access' : β → Access)
    {g : α → β} (h : ∀ item, access' (g item) = (access item).relabel f) (items : List α)
    (e : Effects) :
    (items.map g).foldl (fun e item => e.record (access' item)) (e.relabel f) =
      (items.foldl (fun e item => e.record (access item)) e).relabel f := by
  induction items generalizing e with
  | nil => rfl
  | cons item rest ih =>
    rw [List.map_cons, List.foldl_cons, List.foldl_cons, h item, Effects.record_relabel hf]
    exact ih (e.record (access item))

theorem FlowGraph.labels_relabel (g : FlowGraph) : (g.relabel f).labels = g.labels.map f := by
  rw [FlowGraph.labels, FlowGraph.labels, ← Fragment.unique_relabel hf]
  refine congrArg unique ?_
  simp only [FlowGraph.relabel, List.map_append, List.flatMap_map, List.map_flatMap]
  cases g.initial <;> rfl

theorem Program.graph_relabel (p : Program) : (p.relabel f).graph = p.graph.relabel f := by
  rw [Program.graph, Program.block_relabel, Block.fragment_relabel hf]
  rfl

theorem Program.allEffects_relabel (p : Program) (observers : List (Option String)) :
    (p.relabel f).allEffects observers = (p.allEffects observers).relabel f := by
  have heffects : (p.relabel f).effects observers = (p.effects observers).relabel f := by
    rw [Program.effects, Program.accesses_relabel]
    exact Effects.foldl_record_relabel hf id id (fun _ => rfl) (p.accesses observers) ⟨∅, ∅⟩
  rw [Program.allEffects, heffects, Program.graph_relabel hf, FlowGraph.labels_relabel hf]
  exact Effects.foldl_record_relabel hf (fun label => ⟨label, [], []⟩) (fun label => ⟨label, [], []⟩)
    (fun _ => rfl) p.graph.labels (p.effects observers)

/-! ### Live variables -/

theorem Equations.live_renames (flows : List Flow) (kill gen : Table Label) (labels : List Label) :
    Equations.Renames f (Equations.live flows kill gen labels)
      (Equations.live (flows.map (Prod.map f f)) (kill.rename f) (gen.rename f) (labels.map f)) where
  nodes := by
    show labels.map f ++ (flows.map (Prod.map f f)).flatMap _ = (labels ++ flows.flatMap _).map f
    rw [List.map_append, List.flatMap_map, List.map_flatMap]
    rfl
  apart _ _ _ _ he := hf.eq_iff.mp he
  successors node _ := by
    show (flows.map (Prod.map f f)).filterMap _ = (flows.filterMap _).map f
    rw [List.filterMap_map, List.map_filterMap]
    refine congrArg (fun g => List.filterMap g flows) (funext fun flow => ?_)
    simp only [Function.comp_apply, Prod.map, hf.eq_iff, apply_ite (Option.map f),
      Option.map_some, Option.map_none]
  transfer _ node _ out := by
    show out \ (kill.rename f).get (f node) ∪ (gen.rename f).get (f node) =
      out \ kill.get node ∪ gen.get node
    rw [Table.get_rename fun _ _ he => hf.eq_iff.mp he,
      Table.get_rename fun _ _ he => hf.eq_iff.mp he]

theorem Program.live_relabel (p : Program) (config : Config) :
    (p.relabel f).live config = (p.live config).map (·.rename f) := by
  rw [Program.live, Program.allEffects_relabel hf, Program.graph_relabel hf,
    FlowGraph.labels_relabel hf]
  exact Equations.solve_renames (Equations.live_renames hf _ _ _ _) config.maxPasses

/-! ### Findings -/

theorem deadAssignments_relabel (kill exit : Table Label) :
    deadAssignments (kill.rename f) (exit.rename f) =
      (deadAssignments kill exit).map (Prod.map f id) := by
  show (kill.rows.map (Prod.map f id)).filterMap _ = (kill.rows.filterMap _).map _
  rw [List.filterMap_map, List.map_filterMap]
  refine congrArg (fun g => List.filterMap g kill.rows) (funext fun row => ?_)
  obtain ⟨label, names⟩ := row
  have hout : (exit.rename f).get? (f label) = exit.get? label :=
    Table.get?_rename fun _ _ he => hf.eq_iff.mp he
  simp only [Function.comp_apply, Prod.map, id, hout]
  rcases names.least? with - | name
  · rfl
  rcases exit.get? label with - | out
  · rfl
  · by_cases hlive : name ∈ out
    · simp [hlive]
    · simp [hlive]

theorem allFindings_relabel (events : List Event) (dead : List (Label × String)) :
    allFindings (events.map (Event.relabel f)) (dead.map (Prod.map f id)) =
      (allFindings events dead).map (Finding.relabel f) := by
  have hsorted := Sorting.byKey_map (·.offset) (·.offset) (g := Finding.relabel f)
    (fun _ _ => hf.lt_iff_lt)
  rw [allFindings, allFindings, ← hsorted]
  refine congrArg _ ?_
  rw [List.map_append, List.filterMap_map, List.map_filterMap, List.map_map, List.map_map]
  refine congrArg (· ++ _) (congrArg (fun g => List.filterMap g events) (funext fun e => ?_))
  exact Event.finding?_relabel f e

end Stages

/-! ### The whole analysis -/

/-- An analysis with other offsets. -/
def Analysis.relabel (f : Int → Int) (a : Analysis) : Analysis where
  program := a.program.relabel f
  graph := a.graph.relabel f
  effects := a.effects.relabel f
  live := a.live.rename f
  findings := a.findings.map (Finding.relabel f)

/-- A failure of an analysis with other offsets. -/
def AnalysisError.relabel (f : Int → Int) : AnalysisError → AnalysisError
  | .malformed m => .malformed (m.relabel f)
  | .diverged d => .diverged d

/-- The analysis of a relabelled program is its analysis, relabelled. -/
theorem Program.analyze_relabel {f : Int → Int} (hf : KeepsOrder f) (p : Program)
    (config : Config) :
    (p.relabel f).analyze config =
      ((p.analyze config).map (Analysis.relabel f)).mapError (AnalysisError.relabel f) := by
  rw [Program.analyze, Program.analyze, Program.labels_relabel hf, Program.live_relabel hf]
  rcases p.labels with m | labels
  · rfl
  rcases p.live config with d | live
  · rfl
  refine congrArg Except.ok ?_
  have hevents : (p.relabel f).events = p.events.map (Event.relabel f) := by
    rw [Program.events, Program.block_relabel, Block.events_relabel hf]
    rfl
  have hdead : deadAssignments ((p.allEffects config.calls).relabel f).kill
      (live.rename f).facts.exit =
      (deadAssignments (p.allEffects config.calls).kill live.facts.exit).map (Prod.map f id) :=
    deadAssignments_relabel hf _ _
  rw [Program.graph_relabel hf, Program.allEffects_relabel hf, hevents, hdead,
    allFindings_relabel hf]
  rfl

/-- **Results depend on the order of offsets only.**  Let `f` be strictly increasing, and apply it
to the offset of every node of a program.  If the program has an analysis, so has the relabelled
one: its edges, entry, exits and labels, the keys of its four tables and the offsets of its findings
are those of the first, mapped by `f`, in the same order, with the same names, details and number of
sweeps.  If the program is malformed or its equations do not settle, the relabelled one fails in the
same way, and a malformed node is named by its new offset. -/
theorem analyze_equivariant (p : Program) (config : Config) (f : Int → Int) (hf : KeepsOrder f) :
    (∀ a, p.analyze config = .ok a → ∃ a', (p.relabel f).analyze config = .ok a' ∧
      a'.graph.flows = a.graph.flows.map (fun (l, m) => (f l, f m)) ∧
      a'.graph.initial = a.graph.initial.map f ∧
      a'.graph.finals = a.graph.finals.map f ∧
      a'.graph.labels = a.graph.labels.map f ∧
      a'.effects.gen.rows = a.effects.gen.rows.map (fun (l, names) => (f l, names)) ∧
      a'.effects.kill.rows = a.effects.kill.rows.map (fun (l, names) => (f l, names)) ∧
      a'.live.facts.entry.rows = a.live.facts.entry.rows.map (fun (l, names) => (f l, names)) ∧
      a'.live.facts.exit.rows = a.live.facts.exit.rows.map (fun (l, names) => (f l, names)) ∧
      a'.live.passes = a.live.passes ∧
      a'.findings = a.findings.map (fun d => ⟨d.kind, f d.offset, d.detail⟩)) ∧
    (∀ m, p.analyze config = .error (.malformed m) →
      (p.relabel f).analyze config = .error (.malformed ⟨m.kind, m.offset.map f, m.fault⟩)) ∧
    ∀ d, p.analyze config = .error (.diverged d) →
      (p.relabel f).analyze config = .error (.diverged d) := by
  have h := Program.analyze_relabel hf p config
  refine ⟨fun a ha => ?_, fun m hm => ?_, fun d hd => ?_⟩
  · rw [ha] at h
    exact ⟨a.relabel f, h, rfl, rfl, rfl, FlowGraph.labels_relabel hf a.graph, rfl, rfl, rfl, rfl,
      rfl, rfl⟩
  · rw [hm] at h
    exact h
  · rw [hd] at h
    exact h

/-- `try { risky(); throw e; late(); } catch (e) { x = 1; } x = 2; console.log(x);` -/
def interrupted : Program where
  offset := 0
  body :=
    [.tryStmt 0
      ⟨4, [.exprStmt 6 (.call 6 (.identifier 6 "risky") []),
        .throwStmt 15 (some (.identifier 21 "e")),
        .exprStmt 24 (.call 24 (.identifier 24 "late") [])]⟩
      ⟨44, [.exprStmt 46 (.assignment 46 (.str "=") (.identifier 46 "x")
        (.literal 50 (.int 1) (.str "1")))]⟩ none (.str "e"),
    .exprStmt 55 (.assignment 55 (.str "=") (.identifier 55 "x") (.literal 59 (.int 2) (.str "2"))),
    .exprStmt 62 (.call 62 (.member 62 (.identifier 62 "console") (.identifier 70 "log") false)
      [some (.identifier 74 "x")])]

/-- Moved to three times their offsets less fifty, the edges and the findings of `interrupted` stand
in the same order. -/
theorem interrupted_moved :
    KeepsOrder (fun n : Int => 3 * n - 50) ∧
    ∃ a, interrupted.analyze {} = .ok a ∧
      a.graph.flows = [(6, 15), (6, 46), (15, 46), (46, 55), (55, 62)] ∧
      a.findings = [.unreachable "ExpressionStatement" 24, .deadAssignment "x" 46] ∧
      ∃ a', (interrupted.relabel fun n => 3 * n - 50).analyze {} = .ok a' ∧
        a'.graph.flows = [(-32, -5), (-32, 88), (-5, 88), (88, 115), (115, 136)] ∧
        a'.findings = [.unreachable "ExpressionStatement" 22, .deadAssignment "x" 88] := by
  have hmono : KeepsOrder (fun n : Int => 3 * n - 50) := by
    intro a b hab
    show 3 * a - 50 < 3 * b - 50
    omega
  have hfound : (interrupted.analyze {}).toOption.any (fun a =>
      a.graph.flows = [(6, 15), (6, 46), (15, 46), (46, 55), (55, 62)] ∧
      a.findings = [.unreachable "ExpressionStatement" 24, .deadAssignment "x" 46]) = true := by
    decide +kernel
  obtain ⟨a, hrun, hflows, hfindings⟩ := Program.exists_analysis hfound
  obtain ⟨hmoved, -⟩ := analyze_equivariant interrupted {} _ hmono
  obtain ⟨a', hrun', hflows', -, -, -, -, -, -, -, -, hfindings'⟩ := hmoved a hrun
  refine ⟨hmono, a, hrun, hflows, hfindings, a', hrun', ?_, ?_⟩
  · rw [hflows', hflows]
    decide
  · rw [hfindings', hfindings]
    decide

end Liveness
