/-
Liveness/Proofs/Observers.lean

More observers, more live variables.  Observers decide one thing only: whether a
call reads the plain variables among its arguments.  So with more of them every
access is at the same label, writes the same names and reads no fewer
(`Access.Widens`), access by access, and the tables that are recorded from the
accesses are related in the same way (`Effects.Widens`).

The two runs of the solver have nothing in common but their edges: they may take
different numbers of sweeps.  They are compared through paths, of which more end
in a read when more is read.
-/
import Liveness.Proofs.DeadAssignments
import Mathlib.Data.List.Forall2

namespace Liveness

/-! ### Accesses -/

/-- The second access is the first one with more reads, or with the same. -/
structure Access.Widens (a a' : Access) : Prop where
  label : a'.label = a.label
  writes : a'.writes = a.writes
  reads : ∀ x ∈ a.reads, x ∈ a'.reads

theorem Access.widens_refl (a : Access) : a.Widens a :=
  ⟨rfl, rfl, fun _ hx => hx⟩

section Accesses

variable {observers observers' : List (Option String)}

theorem Expr.isObserver_mono (h : ∀ o ∈ observers, o ∈ observers') {callee : Expr}
    (hc : callee.isObserver observers = true) : callee.isObserver observers' = true := by
  rw [Expr.isObserver, List.contains_iff_mem] at hc ⊢
  exact h _ hc

/-- With more observers a call may read its arguments, and nothing else changes. -/
theorem Expr.access?_widens (h : ∀ o ∈ observers, o ∈ observers') (e : Expr) :
    Option.Rel Access.Widens (e.access? observers) (e.access? observers') := by
  cases e with
  | identifier | literal | member | operation => exact .none
  | assignment _ _ target _ => cases target <;> exact .some (Access.widens_refl _)
  | update _ _ target => cases target <;> exact .some (Access.widens_refl _)
  | call label callee arguments =>
    refine .some ⟨rfl, rfl, fun x hx => ?_⟩
    dsimp only at hx ⊢
    split at hx
    · next hc =>
      rw [if_pos (Expr.isObserver_mono h hc)]
      exact hx
    · cases hx

theorem Expr.accesses_widens (h : ∀ o ∈ observers, o ∈ observers') (e : Expr) :
    List.Forall₂ Access.Widens (e.accesses observers) (e.accesses observers') := by
  refine List.rel_filterMap (R := Eq) ?_ (List.forall₂_eq_eq_eq ▸ rfl)
  rintro part _ rfl
  exact part.access?_widens h

theorem Expr.accesses?_widens (h : ∀ o ∈ observers, o ∈ observers') (e : Option Expr) :
    List.Forall₂ Access.Widens (Expr.accesses? observers e) (Expr.accesses? observers' e) := by
  cases e with
  | none => exact .nil
  | some e => exact e.accesses_widens h

theorem Expr.testAccesses_widens (h : ∀ o ∈ observers, o ∈ observers') (test : Expr) :
    List.Forall₂ Access.Widens (test.testAccesses observers) (test.testAccesses observers') :=
  .cons (Access.widens_refl _) (test.accesses_widens h)

theorem Stmt.accesses_widens (h : ∀ o ∈ observers, o ∈ observers') (s : Stmt) :
    List.Forall₂ Access.Widens (s.accesses observers) (s.accesses observers') := by
  cases s with
  | exprStmt _ e => exact e.accesses_widens h
  | declStmt _ declarators =>
    refine List.rel_flatMap (R := Eq) (List.forall₂_eq_eq_eq ▸ rfl) ?_
    rintro d _ rfl
    exact Expr.accesses?_widens h d.init
  | throwStmt _ argument => exact Expr.accesses?_widens h argument
  | whileStmt _ test | ifStmt _ test => exact test.testAccesses_widens h
  | breakStmt | continueStmt | tryStmt | blockStmt | unsupported => exact .nil

end Accesses

/-! ### Tables of reads and writes -/

/-- The second tables are the first ones with more reads, or with the same. -/
structure Effects.Widens (e e' : Effects) : Prop where
  kill : e'.kill = e.kill
  keys : e'.gen.keys = e.gen.keys
  gen : ∀ l, ∀ x ∈ e.gen.get l, x ∈ e'.gen.get l

namespace Effects

variable {e e' : Effects}

/-- Recording one more access. -/
theorem Widens.record (h : e.Widens e') {a a' : Access} (ha : a.Widens a') :
    (e.record a).Widens (e'.record a') where
  kill := by
    show e'.kill.add a'.label (.ofList a'.writes) = e.kill.add a.label (.ofList a.writes)
    rw [h.kill, ha.label, ha.writes]
  keys := by
    show (e'.gen.set a'.label _).keys = (e.gen.set a.label _).keys
    rw [Table.keys_set, Table.keys_set, h.keys, ha.label]
  gen l x hx := by
    show x ∈ (e'.gen.add a'.label (.ofList a'.reads)).get l
    rw [Table.mem_get_add, NameSet.mem_ofList, ha.label]
    refine (Table.mem_get_add.mp hx).imp (h.gen l x) fun hread => ⟨hread.1, ?_⟩
    exact ha.reads x (NameSet.mem_ofList.mp hread.2)

/-- Recording one access after another. -/
theorem Widens.foldl {accesses accesses' : List Access}
    (ha : List.Forall₂ Access.Widens accesses accesses') (h : e.Widens e') :
    (accesses.foldl Effects.record e).Widens (accesses'.foldl Effects.record e') := by
  induction ha generalizing e e' with
  | nil => exact h
  | cons hfirst _ ih => exact ih (h.record hfirst)

/-- Labels are added as accesses that read and write nothing. -/
theorem Widens.cover (h : e.Widens e') (labels : List Label) :
    (e.cover labels).Widens (e'.cover labels) := by
  have hlabels : List.Forall₂ Access.Widens (labels.map fun l => ⟨l, [], []⟩)
      (labels.map fun l => ⟨l, [], []⟩) := List.forall₂_same.mpr fun a _ => a.widens_refl
  have hcover := Widens.foldl hlabels h
  rw [List.foldl_map, List.foldl_map] at hcover
  exact hcover

end Effects

/-- With more observers more is read in a program, and nothing else changes. -/
theorem Program.allEffects_widens (p : Program) {observers observers' : List (Option String)}
    (h : ∀ o ∈ observers, o ∈ observers') :
    (p.allEffects observers).Widens (p.allEffects observers') := by
  apply Effects.Widens.cover
  apply Effects.Widens.foldl
  · refine List.rel_flatMap (R := Eq) (List.forall₂_eq_eq_eq ▸ rfl) ?_
    rintro s _ rfl
    exact s.accesses_widens h
  · exact ⟨rfl, rfl, fun _ _ hx => hx⟩

/-! ### Live variables -/

section Live

variable {flows : List Flow} {kill gen gen' : Table Label} {labels : List Label}

/-- More reads, more paths that end in one. -/
theorem ReadAhead.mono_gen (hgen : ∀ l, ∀ x ∈ gen.get l, x ∈ gen'.get l) {x : String}
    {label : Label} (h : ReadAhead flows kill gen x label) : ReadAhead flows kill gen' x label := by
  obtain ⟨passed, last, hpath, hread, hpassed⟩ := h
  exact ⟨passed, last, hpath, hgen last x hread, hpassed⟩

/-- Two runs over the same edges and writes, the second with more reads, under any two caps. -/
theorem liveVariables_mono (hgen : ∀ l, ∀ x ∈ gen.get l, x ∈ gen'.get l) {cap cap' : Int}
    {sol sol' : Solution Label} (hrun : liveVariables flows kill gen labels cap = .ok sol)
    (hrun' : liveVariables flows kill gen' labels cap' = .ok sol') (l : Label) :
    (∀ x ∈ sol.facts.entry.get l, x ∈ sol'.facts.entry.get l) ∧
      ∀ x ∈ sol.facts.exit.get l, x ∈ sol'.facts.exit.get l := by
  -- where there is a name there is a node
  have hnode : ∀ {t : Table Label} {x}, x ∈ t.get l → l ∈ t.keys := by
    intro t x hx
    refine Classical.byContradiction fun hno => ?_
    rw [Table.get_of_not_mem_keys hno] at hx
    exact NameSet.not_mem_empty x hx
  constructor
  · intro x hx
    have hl : l ∈ (Equations.live flows kill gen' labels).nodes :=
      (mem_entry_keys hrun).mp (hnode hx)
    exact mem_entry_of_readAhead hrun' hl ((readAhead_of_mem_entry hrun hx).mono_gen hgen)
  · intro x hx
    have hl : l ∈ (Equations.live flows kill gen labels).nodes :=
      (mem_exit_keys hrun).mp (hnode hx)
    obtain ⟨next, hflow, hread⟩ := (mem_exit_iff_readAhead hrun hl).mp hx
    exact (mem_exit_iff_readAhead hrun' hl).mpr ⟨next, hflow, hread.mono_gen hgen⟩

end Live

/-- **More observers, more live variables.**  Take two configurations, the second with all the
observers of the first, and their analyses of one program.  The graph, the writes and what is found
about the graph are the same.  The tables of reads and of live variables have the same labels, and
at every label the sets of the first are contained in those of the second.  Every dead assignment
of the second analysis is one of the first. -/
theorem analyze_mono_observers (p : Program) (config config' : Config)
    (hobservers : ∀ o ∈ config.observers, o ∈ config'.observers) (a a' : Analysis)
    (h : p.analyze config = .ok a) (h' : p.analyze config' = .ok a') :
    a'.graph = a.graph ∧ a'.effects.kill = a.effects.kill ∧
    a'.findings.filter (·.kind ≠ .deadAssignment) = a.findings.filter (·.kind ≠ .deadAssignment) ∧
    (a'.effects.gen.keys = a.effects.gen.keys ∧
      a'.live.facts.entry.keys = a.live.facts.entry.keys ∧
      a'.live.facts.exit.keys = a.live.facts.exit.keys) ∧
    (∀ l, (∀ x ∈ a.effects.gen.get l, x ∈ a'.effects.gen.get l) ∧
      (∀ x ∈ a.live.facts.entry.get l, x ∈ a'.live.facts.entry.get l) ∧
      ∀ x ∈ a.live.facts.exit.get l, x ∈ a'.live.facts.exit.get l) ∧
    ∀ f ∈ a'.findings, f.kind = .deadAssignment → f ∈ a.findings := by
  obtain ⟨hgraph, heffects, hlive, hfindings⟩ := Program.analyze_eq_ok h
  obtain ⟨hgraph', heffects', hlive', hfindings'⟩ := Program.analyze_eq_ok h'
  have hcalls : ∀ o ∈ config.calls, o ∈ config'.calls := fun o ho => by
    obtain ⟨name, hname, rfl⟩ := List.mem_map.mp ho
    exact List.mem_map_of_mem (hobservers name hname)
  have hwider : a.effects.Widens a'.effects := by
    rw [heffects, heffects']
    exact p.allEffects_widens hcalls
  rw [Program.live, ← heffects] at hlive
  rw [Program.live, ← heffects', hwider.kill] at hlive'
  have hkeys := Equations.solve_keys hlive
  have hkeys' := Equations.solve_keys hlive'
  have hmono := liveVariables_mono hwider.gen hlive hlive'
  refine ⟨hgraph'.trans hgraph.symm, hwider.kill, ?_,
    ⟨hwider.keys, hkeys'.1.trans hkeys.1.symm, hkeys'.2.trans hkeys.2.symm⟩,
    fun l => ⟨hwider.gen l, hmono l⟩, fun f hf hkind => ?_⟩
  · rw [hfindings, hfindings', filter_allFindings_events, filter_allFindings_events]
  · have hkill : a.effects.kill.keys.Nodup := by
      rw [heffects]
      exact Effects.nodup_kill_allEffects p config.calls
    rw [hfindings', hwider.kill] at hf
    rcases mem_allFindings.mp hf with hevent | ⟨l, x, hdead, rfl⟩
    · exact absurd hkind (kind_ne_of_mem_filterMap hevent)
    · obtain ⟨hkey, hleast, hout⟩ := (mem_deadAssignments hkill).mp hdead
      rw [hfindings, deadAssignment_mem_allFindings, mem_deadAssignments hkill]
      refine ⟨?_, hleast, fun hx => hout ((hmono l).2 x hx)⟩
      rw [hkeys.2]
      rw [hkeys'.2] at hkey
      exact hkey

/-- `x = 1; log(x); z = y; console.log(y);` -/
def announced : Program where
  offset := 0
  body :=
    [.exprStmt 0 (.assignment 0 (.str "=") (.identifier 0 "x") (.literal 4 (.int 1) (.str "1"))),
      .exprStmt 7 (.call 7 (.identifier 7 "log") [some (.identifier 11 "x")]),
      .exprStmt 15 (.assignment 15 (.str "=") (.identifier 15 "z") (.identifier 19 "y")),
      .exprStmt 22 (.call 22 (.member 22 (.identifier 22 "console") (.identifier 30 "log") false)
        [some (.identifier 34 "y")])]

/-- If `log` reads its argument too, the write of `x` is no longer dead.  The write of `z` is, so it
was before. -/
theorem announced_to_more :
    ∃ a a', announced.analyze ⟨["console.log"], 10⟩ = .ok a ∧
      announced.analyze ⟨["log", "console.log"], 20⟩ = .ok a' ∧
      "y" ∈ a.live.facts.entry.get 0 ∧ "y" ∈ a'.live.facts.entry.get 0 ∧
      Finding.deadAssignment "x" 0 ∈ a.findings ∧ Finding.deadAssignment "x" 0 ∉ a'.findings ∧
      Finding.deadAssignment "z" 15 ∈ a'.findings ∧ Finding.deadAssignment "z" 15 ∈ a.findings := by
  have hfew : (announced.analyze ⟨["console.log"], 10⟩).toOption.any (fun a =>
      "y" ∈ a.live.facts.entry.get 0 ∧ Finding.deadAssignment "x" 0 ∈ a.findings) = true := by
    decide +kernel
  have hmore : (announced.analyze ⟨["log", "console.log"], 20⟩).toOption.any (fun a =>
      Finding.deadAssignment "x" 0 ∉ a.findings ∧
        Finding.deadAssignment "z" 15 ∈ a.findings) = true := by
    decide +kernel
  obtain ⟨a, ha, hy, hx⟩ := Program.exists_analysis hfew
  obtain ⟨a', ha', hx', hz⟩ := Program.exists_analysis hmore
  obtain ⟨-, -, -, -, hsets, hdead⟩ :=
    analyze_mono_observers announced _ _ (by decide) a a' ha ha'
  exact ⟨a, a', ha, ha', hy, (hsets 0).2.1 "y" hy, hx, hx', hz, hdead _ hz rfl⟩

end Liveness
