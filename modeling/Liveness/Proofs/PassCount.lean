/-
Liveness/Proofs/PassCount.lean

The number of sweeps does not depend on the cap.  A run goes through the same
sets whatever its cap is, so it ends with the first sweep that changes nothing,
if the cap allows that many sweeps, and fails if it does not (`solve_eq`).

For live variables over `n` nodes that sweep is one of the first `n + 2`.  All
paths are seen after `n` sweeps, exit sets may be one sweep late, and one more is
needed to see that nothing changes.  A single node with an edge to itself needs
all three.
-/
import Liveness.Proofs.PassCap

namespace Liveness

namespace Equations

variable {ν : Type} [DecidableEq ν] {eqs : Equations ν}

/-! ### Runs under a cap -/

/-- A run under any cap: all sweeps up to the first idle one, or as many as the cap allows. -/
theorem FirstIdle.solve_eq {q : Nat} (h : eqs.FirstIdle q) (cap : Int) :
    eqs.solve cap =
      if cap < (q + 1 : Nat) then .error ⟨cap.toNat⟩ else .ok ⟨eqs.after q, q + 1⟩ := by
  show eqs.iterate cap.toNat 0 (eqs.after 0) = _
  split
  · have hrun : eqs.iterate cap.toNat 0 (eqs.after 0) = .error ⟨0 + cap.toNat⟩ :=
      iterate_after_error fun k _ hk => h.busy k (by omega)
    rw [Nat.zero_add] at hrun
    exact hrun
  · exact h.iterate_ok (Nat.zero_le q) (by omega)

/-- Without nodes the first sweep has nothing to do. -/
theorem firstIdle_of_order_eq_nil (h : eqs.order = []) : eqs.FirstIdle 0 where
  idle := by
    show eqs.sweep 0 eqs.start = eqs.start
    rw [sweep, h, List.foldl_nil]
  busy k hk := absurd hk (Nat.not_lt_zero k)

end Equations

/-! ### Live variables -/

/-- The first idle sweep over `n` nodes comes after `n + 1` others at the latest. -/
theorem exists_firstIdle_live (flows : List Flow) (kill gen : Table Label) (labels : List Label) :
    ∃ q ≤ (Equations.live flows kill gen labels).order.length + 1,
      (Equations.live flows kill gen labels).FirstIdle q := by
  rcases hn : (Equations.live flows kill gen labels).order.length with - | n
  · exact ⟨0, Nat.zero_le _, Equations.firstIdle_of_order_eq_nil (List.length_eq_zero_iff.mp hn)⟩
  · -- with a node there are two sweeps at least, which is what late exit sets need
    have hsettled : (Equations.live flows kill gen labels).after (n + 1 + 1 + 1) =
        (Equations.live flows kill gen labels).after (n + 1 + 1) :=
      Equations.sweep_eq_self fun l hl =>
        settledAt_after (by omega) (by omega) (Equations.mem_order.mp hl)
    exact Equations.exists_firstIdle hsettled

/-- With a cap of two more than its labels a program has live variables. -/
theorem Program.live_ne_error (p : Program) (config : Config)
    (hcap : p.graph.labels.length + 2 ≤ config.maxPasses) (d : Diverged) :
    p.live config ≠ .error d := by
  obtain ⟨q, hq, hidle⟩ := exists_firstIdle_live p.graph.flows (p.allEffects config.calls).kill
    (p.allEffects config.calls).gen p.graph.labels
  rw [p.graph.live_order] at hq
  have hrun : p.live config = _ := hidle.solve_eq config.maxPasses
  rw [hrun, if_neg (by omega)]
  intro h
  cases h

/-- **The number of sweeps of live variables.**  For any edges, reads, writes and labels with `n`
different nodes there is a number `p` between `1` and `n + 2` and there are sets, such that a run
under a cap `c` fails after `c` sweeps if `c < p`, and else gives these sets after `p` sweeps.  So a
program is never refused for the cap if this is at least two more than its graph has labels. -/
theorem liveVariables_pass_count :
    (∀ (flows : List Flow) (kill gen : Table Label) (labels : List Label),
      ∃ (p : Nat) (facts : Assignment Label), 1 ≤ p ∧
        p ≤ (unique (labels ++ flows.flatMap fun flow => [flow.1, flow.2])).length + 2 ∧
        ∀ c : Int, 1 ≤ c →
          (c < p → liveVariables flows kill gen labels c = .error ⟨c.toNat⟩) ∧
          (p ≤ c → liveVariables flows kill gen labels c = .ok ⟨facts, p⟩)) ∧
    ∀ (program : Program) (config : Config),
      program.graph.labels.length + 2 ≤ config.maxPasses →
      ∀ d, program.analyze config ≠ .error (.diverged d) := by
  constructor
  · intro flows kill gen labels
    obtain ⟨q, hq, hidle⟩ := exists_firstIdle_live flows kill gen labels
    refine ⟨q + 1, (Equations.live flows kill gen labels).after q, Nat.succ_pos q,
      Nat.succ_le_succ hq, fun c _ => ⟨fun hc => ?_, fun hc => ?_⟩⟩
    · exact (hidle.solve_eq c).trans (if_pos hc)
    · exact (hidle.solve_eq c).trans (if_neg (by omega))
  · intro program config hcap d h
    rw [Program.analyze] at h
    split at h
    · cases h
    · split at h
      · next d' hlive => exact program.live_ne_error config hcap d' hlive
      · cases h

/-- `while (x) {}`, whose one label follows itself. -/
def spinning : Program where
  offset := 0
  body := [.whileStmt 0 (.identifier 7 "x") ⟨10, []⟩]

/-- A label that reads a variable and follows itself takes three sweeps, two more than there are
nodes: the variable is at the entry after the first sweep and at the exit after the second. -/
theorem spinning_pass_count :
    (∃ facts, liveVariables [(7, 7)] ∅ ⟨[(7, .ofList ["x"])]⟩ [] 3 = .ok ⟨facts, 3⟩) ∧
    liveVariables [(7, 7)] ∅ ⟨[(7, .ofList ["x"])]⟩ [] 2 = .error ⟨2⟩ ∧
    spinning.graph.labels.length + 2 ≤ Config.maxPasses ⟨[], 3⟩ ∧
    ∀ d, spinning.analyze ⟨[], 3⟩ ≠ .error (.diverged d) := by
  obtain ⟨hruns, hprograms⟩ := liveVariables_pass_count
  obtain ⟨p, facts, -, hp, hrun⟩ := hruns [(7, 7)] ∅ ⟨[(7, .ofList ["x"])]⟩ []
  have htwo : liveVariables [(7, 7)] ∅ ⟨[(7, .ofList ["x"])]⟩ [] 2 = .error ⟨2⟩ := by
    decide +kernel
  have hle : p ≤ 3 := hp
  have hlt : ¬ (p : Int) ≤ 2 := by
    intro h
    rw [(hrun 2 (by decide)).2 h] at htwo
    cases htwo
  obtain rfl : p = 3 := by omega
  have hcap : spinning.graph.labels.length + 2 ≤ Config.maxPasses ⟨[], 3⟩ := by decide
  exact ⟨⟨facts, (hrun 3 (by decide)).2 (by decide)⟩, htwo, hcap, hprograms spinning ⟨[], 3⟩ hcap⟩

end Liveness
