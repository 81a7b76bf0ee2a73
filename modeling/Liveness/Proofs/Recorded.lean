/-
Liveness/Proofs/Recorded.lean

Where reads and writes are recorded.  The sets of a label hold what the accesses
at that label read and write, and nothing else (`Program.mem_gen_allEffects`,
`Program.mem_kill_allEffects`).  Every access belongs to a statement with a point
of its own, and that point is a label of the flow graph or stands inside a part
that is reported.

The point of the statement is what is covered, not the place of the access: an
assignment between parentheses starts one character after its statement, and what
it reads and writes is then recorded at a label that the graph does not have.
-/
import Liveness.Proofs.Coverage
import Liveness.Proofs.DeadAssignments

namespace Liveness

/-! ### Recorded names -/

namespace Effects

variable (table : Effects → Table Label) (names : Access → List String)

/-- One of the two tables after some more accesses: each has added its names at its label. -/
theorem mem_get_foldl {α : Type} (access : α → Access)
    (hrecord : ∀ e a, table (e.record a) = (table e).add a.label (.ofList (names a)))
    (items : List α) (e : Effects) (l : Label) (x : String) :
    x ∈ (table (items.foldl (fun e item => e.record (access item)) e)).get l ↔
      x ∈ (table e).get l ∨ ∃ item ∈ items, (access item).label = l ∧ x ∈ names (access item) := by
  induction items generalizing e with
  | nil => simp
  | cons item rest ih =>
    rw [List.foldl_cons, ih, hrecord, Table.mem_get_add, NameSet.mem_ofList, or_assoc]
    simp only [List.mem_cons, exists_eq_or_imp]

/-- One of the two tables of a whole program: what is recorded comes from the accesses of its
statements, and the labels of the graph that are added have no names. -/
theorem mem_get_allEffects (p : Program) (observers : List (Option String))
    (hrecord : ∀ e a, table (e.record a) = (table e).add a.label (.ofList (names a)))
    (hblank : ∀ l, names ⟨l, [], []⟩ = []) (hempty : table ⟨∅, ∅⟩ = ∅) (l : Label) (x : String) :
    x ∈ (table (p.allEffects observers)).get l ↔
      ∃ s ∈ p.statements, ∃ a ∈ s.accesses observers, a.label = l ∧ x ∈ names a := by
  have hcover : x ∈ (table (p.allEffects observers)).get l ↔
      x ∈ (table (p.effects observers)).get l := by
    refine (mem_get_foldl table names (fun label => ⟨label, [], []⟩) hrecord p.graph.labels
      (p.effects observers) l x).trans (or_iff_left ?_)
    rintro ⟨label, -, -, hx⟩
    rw [hblank] at hx
    cases hx
  have haccesses : x ∈ (table (p.effects observers)).get l ↔
      ∃ a ∈ p.accesses observers, a.label = l ∧ x ∈ names a := by
    refine (mem_get_foldl table names id hrecord (p.accesses observers) ⟨∅, ∅⟩ l x).trans
      (or_iff_right ?_)
    rw [hempty]
    exact NameSet.not_mem_empty x
  rw [hcover, haccesses, Program.accesses]
  constructor
  · rintro ⟨a, ha, hx⟩
    obtain ⟨s, hs, ha⟩ := List.mem_flatMap.mp ha
    exact ⟨s, hs, a, ha, hx⟩
  · rintro ⟨s, hs, a, ha, hx⟩
    exact ⟨a, List.mem_flatMap.mpr ⟨s, hs, ha⟩, hx⟩

end Effects

namespace Program

/-- The reads of a label are those of the accesses there. -/
theorem mem_gen_allEffects (p : Program) (observers : List (Option String)) (l : Label)
    (x : String) : x ∈ (p.allEffects observers).gen.get l ↔
      ∃ s ∈ p.statements, ∃ a ∈ s.accesses observers, a.label = l ∧ x ∈ a.reads :=
  Effects.mem_get_allEffects Effects.gen Access.reads p observers (fun _ _ => rfl) (fun _ => rfl)
    rfl l x

/-- The writes of a label are those of the accesses there. -/
theorem mem_kill_allEffects (p : Program) (observers : List (Option String)) (l : Label)
    (x : String) : x ∈ (p.allEffects observers).kill.get l ↔
      ∃ s ∈ p.statements, ∃ a ∈ s.accesses observers, a.label = l ∧ x ∈ a.writes :=
  Effects.mem_get_allEffects Effects.kill Access.writes p observers (fun _ _ => rfl) (fun _ => rfl)
    rfl l x

end Program

/-! ### Covered points -/

/-- A statement that makes an access has a point of its own. -/
theorem Stmt.exists_point_of_mem_accesses {s : Stmt} {observers : List (Option String)}
    {a : Access} (h : a ∈ s.accesses observers) : ∃ l, s.point? = some l := by
  cases s with
  | tryStmt | blockStmt | unsupported => cases h
  | breakStmt | continueStmt => cases h
  | exprStmt | declStmt | throwStmt | whileStmt | ifStmt => exact ⟨_, rfl⟩

/-- **Where reads and writes are recorded.**  In the analysis of a program with no `break` or
`continue` in code that has something to run on the way out, the sets of a label hold the names of
the accesses there.  Every access belongs to a statement whose point is a label of the graph or
stands inside a part for which there is a finding.  So does a label with a read or a write, if the
accesses at it start at the points of their statements. -/
theorem recorded_labels_covered (p : Program) (config : Config) (a : Analysis)
    (h : p.analyze config = .ok a) (hjumps : ∀ s ∈ p.statements, s.Unjumped) :
    (∀ l x, x ∈ a.effects.gen.get l ↔
      ∃ s ∈ p.statements, ∃ access ∈ s.accesses config.calls,
        access.label = l ∧ x ∈ access.reads) ∧
    (∀ l x, x ∈ a.effects.kill.get l ↔
      ∃ s ∈ p.statements, ∃ access ∈ s.accesses config.calls,
        access.label = l ∧ x ∈ access.writes) ∧
    (∀ s ∈ p.statements, ∀ access ∈ s.accesses config.calls, ∃ l, s.point? = some l ∧
      (l ∈ a.graph.labels ∨ ∃ r ∈ p.reports, r.event.finding? ≠ none ∧ l ∈ r.inside p)) ∧
    ∀ l, (∃ x, x ∈ a.effects.gen.get l ∨ x ∈ a.effects.kill.get l) →
      (∀ s ∈ p.statements, ∀ access ∈ s.accesses config.calls, access.label = l →
        s.point? = some l) →
      l ∈ a.graph.labels ∨ ∃ r ∈ p.reports, r.event.finding? ≠ none ∧ l ∈ r.inside p := by
  obtain ⟨hgraph, heffects, -, -⟩ := Program.analyze_eq_ok h
  have hcovered : ∀ s ∈ p.statements, ∀ l, s.point? = some l →
      l ∈ a.graph.labels ∨ ∃ r ∈ p.reports, r.event.finding? ≠ none ∧ l ∈ r.inside p := by
    intro s hs l hl
    rw [hgraph, Program.mem_graph_labels hjumps]
    exact p.built_or_reported (List.mem_filterMap.mpr ⟨s, hs, hl⟩)
  have hgen := p.mem_gen_allEffects config.calls
  have hkill := p.mem_kill_allEffects config.calls
  rw [← heffects] at hgen hkill
  refine ⟨hgen, hkill, ?_, ?_⟩
  · intro s hs access haccess
    obtain ⟨l, hl⟩ := Stmt.exists_point_of_mem_accesses haccess
    exact ⟨l, hl, hcovered s hs l hl⟩
  · rintro l ⟨x, hx⟩ haligned
    obtain ⟨s, hs, access, haccess, hlabel⟩ : ∃ s ∈ p.statements,
        ∃ access ∈ s.accesses config.calls, access.label = l := by
      rcases hx with hx | hx
      · obtain ⟨s, hs, access, haccess, hlabel, -⟩ := (hgen l x).mp hx
        exact ⟨s, hs, access, haccess, hlabel⟩
      · obtain ⟨s, hs, access, haccess, hlabel, -⟩ := (hkill l x).mp hx
        exact ⟨s, hs, access, haccess, hlabel⟩
    exact hcovered s hs l (haligned s hs access haccess hlabel)

/-- `while (more) { x = y; break; z = 2; } console.log(x);` -/
def shortened : Program where
  offset := 0
  body :=
    [.whileStmt 0 (.identifier 7 "more") ⟨13,
      [.exprStmt 15 (.assignment 15 (.str "=") (.identifier 15 "x") (.identifier 19 "y")),
        .breakStmt 22 .null,
        .exprStmt 29 (.assignment 29 (.str "=") (.identifier 29 "z")
          (.literal 33 (.int 2) (.str "2")))]⟩,
    .exprStmt 38 (.call 38 (.member 38 (.identifier 38 "console") (.identifier 46 "log") false)
      [some (.identifier 50 "x")])]

/-- The write of `x` is recorded at a label of the graph, and the write of `z` inside a statement
that is reported. -/
theorem shortened_recorded :
    ∃ a, shortened.analyze {} = .ok a ∧ (∀ s ∈ shortened.statements, s.Unjumped) ∧
      "x" ∈ a.effects.kill.get 15 ∧ 15 ∈ a.graph.labels ∧
      "z" ∈ a.effects.kill.get 29 ∧ 29 ∉ a.graph.labels ∧
      ∃ r ∈ shortened.reports, r.event.finding? ≠ none ∧ 29 ∈ r.inside shortened := by
  have hrecorded : (shortened.analyze {}).toOption.any (fun a =>
      "x" ∈ a.effects.kill.get 15 ∧ 15 ∈ a.graph.labels ∧
      "z" ∈ a.effects.kill.get 29 ∧ 29 ∉ a.graph.labels) = true := by decide +kernel
  have hjumps : ∀ s ∈ shortened.statements, s.Unjumped := by decide
  have haligned : ∀ s ∈ shortened.statements, ∀ access ∈ s.accesses (Config.calls {}),
      access.label = 29 → s.point? = some 29 := by decide +kernel
  obtain ⟨a, hrun, hx, h15, hz, h29⟩ := Program.exists_analysis hrecorded
  obtain ⟨-, -, -, hcovered⟩ := recorded_labels_covered _ _ _ hrun hjumps
  exact ⟨a, hrun, hjumps, hx, h15, hz, h29,
    (hcovered 29 ⟨"z", Or.inr hz⟩ haligned).resolve_left h29⟩

/-- `y = 1; (x = y); console.log(x);` -/
def parenthesized : Program where
  offset := 0
  body :=
    [.exprStmt 0 (.assignment 0 (.str "=") (.identifier 0 "y") (.literal 4 (.int 1) (.str "1"))),
      .exprStmt 7 (.assignment 8 (.str "=") (.identifier 8 "x") (.identifier 12 "y")),
      .exprStmt 16 (.call 16 (.member 16 (.identifier 16 "console") (.identifier 24 "log") false)
        [some (.identifier 28 "x")])]

/-- Nothing is reported about the flow of the program, and yet the label at which the second
assignment is recorded is none of the graph.  So its read of `y` is lost, and the first assignment
counts as dead. -/
theorem parenthesized_read_lost :
    parenthesized.reports = [] ∧
    ∃ a, parenthesized.analyze {} = .ok a ∧
      "y" ∈ a.effects.gen.get 8 ∧ "x" ∈ a.effects.kill.get 8 ∧ 8 ∉ a.graph.labels ∧
      Finding.deadAssignment "y" 0 ∈ a.findings := by
  have hlost : (parenthesized.analyze {}).toOption.any (fun a =>
      "y" ∈ a.effects.gen.get 8 ∧ "x" ∈ a.effects.kill.get 8 ∧ 8 ∉ a.graph.labels ∧
      Finding.deadAssignment "y" 0 ∈ a.findings) = true := by decide +kernel
  exact ⟨rfl, Program.exists_analysis hlost⟩

end Liveness
