/-
Liveness/Proofs/ExactGraph.lean

The flow graph of a program is exact: two labels are joined by an edge if and
only if some run executes one right after the other, runs begin at the entry, and
they end normally at the exits.

This holds of programs that have no `finally` and whose offsets follow the order
of the text.  The order matters for guarded blocks only: statements after a
`throw` that every run meets do not count as places where the handler is entered,
and they are told by their offsets.  In a program in the order of the text the
block ends with such a statement, so nothing is cut off (`Fragment.Uncut`).
-/
import Liveness.Proofs.Built
import Liveness.Proofs.Exactness
import Mathlib.Data.List.TakeWhile

namespace Liveness

open Behaviour

/-! ### Programs in the order of the text -/

/-- What is run on the way out of a statement. -/
def Stmt.finalizer? : Stmt → Option Block
  | .tryStmt _ _ _ finalizer _ => finalizer
  | _ => none

/-- The statements of a block start one after another. -/
def Block.Increasing (b : Block) : Prop :=
  b.body.Pairwise fun r s => r.offset < s.offset

instance (b : Block) : Decidable b.Increasing :=
  inferInstanceAs (Decidable (b.body.Pairwise fun r s => r.offset < s.offset))

/-- A statement without `finally`, which starts before the points inside it and whose blocks are
in the order of the text. -/
structure Stmt.Plain (s : Stmt) : Prop where
  finallyFree : s.finalizer? = none
  starts : ∀ l ∈ s.points, s.offset ≤ l
  increasing : ∀ b ∈ s.blocks, b.Increasing

/-- No statement of a program has a `finally`. -/
def Program.FinallyFree (p : Program) : Prop :=
  ∀ s ∈ p.statements, s.finalizer? = none

/-- The offsets of a program follow the order of the text: in every body the statements start one
after another, and every statement starts before the points inside it. -/
def Program.SourceOrdered (p : Program) : Prop :=
  p.block.Increasing ∧
    ∀ s ∈ p.statements, (∀ l ∈ s.points, s.offset ≤ l) ∧ ∀ b ∈ s.blocks, b.Increasing

instance (p : Program) : Decidable p.FinallyFree :=
  inferInstanceAs (Decidable (∀ s ∈ p.statements, s.finalizer? = none))

instance (p : Program) : Decidable p.SourceOrdered :=
  inferInstanceAs (Decidable (_ ∧ ∀ s ∈ p.statements, _ ∧ ∀ b ∈ s.blocks, b.Increasing))

/-! ### Entries of blocks in the order of the text -/

/-- No entry of a block stands after the `throw` that every run meets. -/
def Fragment.Uncut (f : Fragment) : Prop :=
  ∀ l, f.throwAt = some l → ∀ e ∈ f.entries, e.1 ≤ l

/-- The handler of a block that is not cut is entered from all entries and all `throw`s. -/
theorem Fragment.Uncut.mem_sources {f : Fragment} (h : f.Uncut) (x : Label) :
    x ∈ f.sources ↔ x ∈ (f.exposed true).raises := by
  rw [sources, mem_unique, List.takeWhile_eq_self_iff.mpr]
  · rfl
  · intro e he
    dsimp only
    split
    next l hl => exact decide_eq_true (h l hl e he)
    next => rfl

/-- Only the last statement of a block can bring a `throw` that every run meets, and it starts
after all others. -/
theorem Stmt.uncut_sequence {ss : List Stmt} {f : Fragment}
    (hss : ss.Pairwise fun r s => r.offset < s.offset)
    (hstarts : ∀ s ∈ ss, ∀ l ∈ s.points, s.offset ≤ l) (hf : f.Coherent) (huncut : f.Uncut)
    (hbefore : ∀ e ∈ f.entries, ∀ s ∈ ss, e.1 < s.offset) : (Stmt.sequence f ss).Uncut := by
  induction ss generalizing f with
  | nil =>
    rw [Stmt.sequence]
    exact huncut
  | cons s rest ih =>
    obtain ⟨hs, hrest⟩ := List.pairwise_cons.mp hss
    rw [Stmt.sequence]
    split
    next hr =>
      -- the entry of `s` is the last one so far, and it is recorded at the offset of `s`
      have hentries : ∀ e ∈ (f.andThen s.offset s.fragment).entries, e.1 ≤ s.offset := by
        intro e he
        rcases hi : s.fragment.initial with - | entry
        · rw [Fragment.andThen_of_none _ hi] at he
          exact Int.le_of_lt (hbefore e he s List.mem_cons_self)
        · rw [Fragment.andThen_of_some _ hi] at he
          rcases List.mem_append.mp he with he | he
          · exact Int.le_of_lt (hbefore e he s List.mem_cons_self)
          · exact Int.le_of_eq (congrArg Prod.fst (List.mem_singleton.mp he))
      refine ih hrest (fun r hr => hstarts r (List.mem_cons_of_mem s hr))
        (hf.andThen s.coherent hr s.offset) ?_ ?_
      · intro l hl e he
        -- what came before could end normally, so the `throw` stands inside `s`
        have hthrow : s.fragment.throwAt = some l := by
          rcases hi : s.fragment.initial with - | entry
          · rw [Fragment.andThen_of_none _ hi, hf.throwAt_eq_none hr] at hl
            cases hl
          · rw [Fragment.andThen_of_some _ hi, hf.throwAt_eq_none hr] at hl
            exact hl
        exact Int.le_trans (hentries e he)
          (hstarts s List.mem_cons_self l (s.within.throwAt l hthrow))
      · intro e he r hr
        exact Int.lt_of_le_of_lt (hentries e he) (hs r hr)
    next => exact huncut

theorem Block.uncut {b : Block} (h : b.Increasing) (hplain : ∀ s ∈ b.statements, s.Plain) :
    b.fragment.Uncut := by
  obtain ⟨offset, body⟩ := b
  rw [Block.fragment]
  refine Stmt.uncut_sequence h ?_ Fragment.coherent_empty nofun nofun
  intro s hs
  rw [Block.statements] at hplain
  exact (hplain s (Stmt.mem_flatten.mpr ⟨s, hs, Or.inl rfl⟩)).starts

/-! ### Statements and blocks -/

theorem Stmt.plain_of_mem_blocks {s : Stmt} (h : ∀ r ∈ s :: s.nested, r.Plain) {b : Block}
    (hb : b ∈ s.blocks) : ∀ r ∈ b.statements, r.Plain :=
  fun r hr => h r (List.mem_cons_of_mem s (Stmt.mem_nested.mpr ⟨b, hb, hr⟩))

theorem Reading.point_structural (address : List Step) (label : Label) (k : Completion) :
    Reading.structural.point address label k = single label [k] := rfl

/-- Falling through twice is falling through. -/
theorem oneOf_idle_idle : oneOf [idle, idle] = oneOf [(idle : Behaviour Label)] := by
  funext t k
  simp [oneOf]

mutual
theorem Stmt.describes (address : List Step) : (s : Stmt) → (∀ r ∈ s :: s.nested, r.Plain) →
    s.fragment.Describes (s.runs .structural address)
  | .exprStmt offset _, _ => by
    rw [Stmt.fragment, Stmt.runs]
    exact Fragment.describes_step offset
  | .declStmt offset _, _ => by
    rw [Stmt.fragment, Stmt.runs]
    exact Fragment.describes_step offset
  | .throwStmt offset _, _ => by
    rw [Stmt.fragment, Stmt.runs]
    exact Fragment.describes_throwing offset
  | .breakStmt offset _, _ => by
    rw [Stmt.fragment, Stmt.runs]
    exact Fragment.describes_breaking offset
  | .continueStmt offset _, _ => by
    rw [Stmt.fragment, Stmt.runs]
    exact Fragment.describes_continuing offset
  | .whileStmt offset test body, h => by
    have hbody := Block.describes false (address ++ [.child "body"]) body
      (Stmt.plain_of_mem_blocks h (by simp [Stmt.blocks]))
    have hfails : Reading.structural.lenient = true ∨ test.truth? ≠ some true := Or.inl rfl
    rw [Stmt.fragment, Stmt.runs, Reading.point_structural]
    split
    next htest =>
      rw [loop_of_not (not_not_intro htest) hfails]
      exact Fragment.describes_step test.offset
    next htest => exact hbody.loop test.offset htest hfails
  | .ifStmt offset test consequent none folded, h => by
    have hconsequent := Block.describes false (address ++ [.child "consequent"]) consequent
      (Stmt.plain_of_mem_blocks h (by simp [Stmt.blocks]))
    have hfails : Reading.structural.lenient = true ∨ Stmt.decided? folded test ≠ some true :=
      Or.inl rfl
    rw [Stmt.fragment, Stmt.runs, Reading.point_structural, either_eq_oneOf, if_pos hfails]
    split
    next hd =>
      rw [if_neg (not_not_intro hd), List.nil_append, ← oneOf_idle_idle]
      exact Fragment.describes_choice_withoutElse test.offset [(.empty, idle)]
        (by simpa using Fragment.describes_empty)
    next hd =>
      rw [if_pos hd]
      exact Fragment.describes_choice_withoutElse test.offset [(_, _)]
        (by simpa using hconsequent)
  | .ifStmt offset test consequent (some alternate) folded, h => by
    have hconsequent := Block.describes false (address ++ [.child "consequent"]) consequent
      (Stmt.plain_of_mem_blocks h (by simp [Stmt.blocks]))
    have halternate := Block.describes false (address ++ [.child "alternate"]) alternate
      (Stmt.plain_of_mem_blocks h (by simp [Stmt.blocks]))
    rw [Stmt.fragment, Stmt.runs, Reading.point_structural, either_eq_oneOf]
    split
    next hd =>
      rw [hd, if_pos (by decide), if_neg (by decide), List.append_nil]
      exact Fragment.describes_choice test.offset [(_, _)]
        (by simpa using hconsequent) (by simp)
    next hd =>
      rw [hd, if_neg (by decide), if_pos (by decide), List.nil_append]
      exact Fragment.describes_choice test.offset [(_, _)]
        (by simpa using halternate) (by simp)
    next hd =>
      rw [hd, if_pos (by decide), if_pos (by decide)]
      exact Fragment.describes_choice test.offset [(_, _), (_, _)]
        (by simpa using ⟨hconsequent, halternate⟩) (by simp)
  | .tryStmt offset block handler none param, h => by
    have hblock := Stmt.plain_of_mem_blocks h (b := block) (by simp [Stmt.blocks])
    have hhandler := Stmt.plain_of_mem_blocks h (b := handler) (by simp [Stmt.blocks])
    have hincreasing : block.Increasing :=
      (h _ List.mem_cons_self).increasing block (by simp [Stmt.blocks])
    rw [Stmt.fragment, Stmt.runs]
    -- the one place where the order of the text is used
    exact (Block.describes true (address ++ [.child "block"]) block hblock).guarded
      (Block.describes false (address ++ [.child "handler"]) handler hhandler)
      (Block.uncut hincreasing hblock).mem_sources Block.sources_ne_nil
  | .tryStmt offset block handler (some finalizer) param, h => by
    cases (h _ List.mem_cons_self).finallyFree
  | .blockStmt block, h => by
    rw [Stmt.fragment, Stmt.runs]
    exact Block.describes false address block (Stmt.plain_of_mem_blocks h (by simp [Stmt.blocks]))
  | .unsupported .., _ => by rw [Stmt.fragment, Stmt.runs]; exact Fragment.describes_empty
theorem Block.describes (guarded : Bool) (address : List Step) :
    (b : Block) → (∀ r ∈ b.statements, r.Plain) →
    (b.fragment.exposed guarded).Describes (b.runs .structural guarded address)
  | ⟨_, body⟩, h => by
    rw [Block.statements] at h
    have hempty : (Fragment.empty.exposed guarded).Describes idle := by
      cases guarded <;> exact Fragment.describes_empty
    have hbody := Stmt.describes_sequence guarded (address ++ [.child "body"]) 0 body hempty h
    rw [idle_andThen] at hbody
    rw [Block.fragment, Block.runs]
    exact hbody
theorem Stmt.describes_sequence (guarded : Bool) (address : List Step) (i : Nat) :
    (ss : List Stmt) → ∀ {f : Fragment} {b : Behaviour Label},
    (f.exposed guarded).Describes b → (∀ r ∈ Stmt.flatten ss, r.Plain) →
    ((Stmt.sequence f ss).exposed guarded).Describes
      (b.andThen (Stmt.runsFrom .structural guarded address i ss))
  | [], f, b, hf, _ => by
    rw [Stmt.sequence, Stmt.runsFrom, andThen_idle]
    exact hf
  | s :: rest, f, b, hf, h => by
    rw [Stmt.flatten] at h
    rw [Stmt.sequence, Stmt.runsFrom]
    split
    next hr =>
      rw [← andThen_assoc]
      have hs := Stmt.describes (address ++ [.item i]) s fun r hr =>
        h r (List.mem_append_left (Stmt.flatten rest) hr)
      exact Stmt.describes_sequence guarded address (i + 1) rest
        (hf.andThen_within hs hr s.offset) fun r hr => h r (by simp [hr])
    next hr =>
      -- what comes after a statement that cannot end normally is never reached
      have hends : ¬ b.Ends .normal := fun hends => hr (hf.completes.mpr hends)
      rw [andThen_of_not_ends hends]
      exact hf
end

/-! ### Programs -/

theorem Program.plain {p : Program} (hfree : p.FinallyFree) (hordered : p.SourceOrdered) :
    ∀ s ∈ p.block.statements, s.Plain :=
  fun s hs => ⟨hfree s hs, (hordered.2 s hs).1, (hordered.2 s hs).2⟩

/-- **The flow graph is exact.**  In a program without `finally` whose offsets follow the order of
the text, the edges are the pairs of labels that some run executes one right after the other, the
entry is the label with which runs begin, and the exits are those with which runs end normally. -/
theorem Program.graph_exact (p : Program) (hfree : p.FinallyFree) (hordered : p.SourceOrdered) :
    (∀ a b, (a, b) ∈ p.graph.flows ↔ (p.runs .structural).Follows a b) ∧
    (∀ l, p.graph.initial = some l ↔ (p.runs .structural).First l) ∧
    (∀ l, l ∈ p.graph.finals ↔ (p.runs .structural).Last .normal l) := by
  have h : p.block.fragment.Describes (p.runs .structural) :=
    Block.describes false [] p.block (Program.plain hfree hordered)
  exact ⟨h.flows, h.initial, fun l => h.leaves .normal l (by decide)⟩

/-- `while (more) { try { step(); if (bad) throw e; } catch (e) { break; } } log();` -/
def retrying : Program where
  offset := 0
  body :=
    [.whileStmt 0 (.identifier 7 "more") ⟨13,
      [.tryStmt 15
        ⟨19, [.exprStmt 21 (.call 21 (.identifier 21 "step") []),
          .ifStmt 29 (.identifier 33 "bad") ⟨38, [.throwStmt 38 (some (.identifier 44 "e"))]⟩
            none false]⟩
        ⟨59, [.breakStmt 61 .null]⟩ none (.str "e")]⟩,
      .exprStmt 71 (.call 71 (.identifier 71 "log") [])]

/-- The handler is entered after the call, after the test and after the `throw`, and it leaves
the loop. -/
theorem retrying_graph_exact :
    retrying.FinallyFree ∧ retrying.SourceOrdered ∧
    (∀ a b, (retrying.runs .structural).Follows a b ↔
      (a, b) ∈ [(7, 21), (21, 33), (33, 38), (21, 61), (33, 61), (38, 61), (33, 7), (7, 71),
        (61, 71)]) ∧
    (∀ l, (retrying.runs .structural).First l ↔ some 7 = some l) ∧
    ∀ l, (retrying.runs .structural).Last .normal l ↔ l ∈ [71] := by
  have hfree : retrying.FinallyFree := by decide
  have hordered : retrying.SourceOrdered := by decide
  obtain ⟨hflows, hinitial, hfinals⟩ := Program.graph_exact retrying hfree hordered
  exact ⟨hfree, hordered, fun a b => (hflows a b).symm, fun l => (hinitial l).symm,
    fun l => (hfinals l).symm⟩

end Liveness
