/-
Liveness/Proofs/Trails.lean

Runs with what is held up on the way out.  When a guarded block or its handler is
left, `finally` runs first, and a `break`, a `continue` or an exception goes on
only after it.  A trail is a run of labels that shows where this happens:

* `detour` stands where a `break` or a `continue` is held up and the code on the
  way out is entered in its place;
* `resumed l` stands where that code has ended normally and the jump made at `l`,
  which was pending, goes on.

Otherwise trails are put together as runs are.  Only `throw` raises here.  Every
run of a program has a trail that executes the same labels (`Program.traced`).
-/
import Liveness.Proofs.Reports
import Liveness.Proofs.Runs

namespace Liveness

open Behaviour

/-! ### Marks -/

/-- What a trail passes. -/
inductive Mark where
  /-- A label is executed. -/
  | point (label : Label)
  /-- A `break` or a `continue` is held up. -/
  | detour
  /-- The jump made at a label goes on after it was held up. -/
  | resumed (label : Label)
  deriving DecidableEq, Repr

namespace Mark

/-- The label that is executed. -/
def label? : Mark → Option Label
  | point label => some label
  | detour | resumed _ => none

/-- The label from which a trail goes on: the one executed, or the one whose jump is resumed. -/
def source? : Mark → Option Label
  | point label | resumed label => some label
  | detour => none

end Mark

/-- What a trail shows before the way out: `break` and `continue` are held up. -/
def Completion.entering : Completion → List Mark
  | .broke | .continued => [.detour]
  | .normal | .threw | .cut => []

/-- What a trail shows after the way out: unless it had ended normally before, the jump with which
it had ended goes on. -/
def Completion.leaving (t : List Mark) : Completion → List Mark
  | .normal => []
  | .broke | .continued | .threw | .cut => (t.getLast?.bind Mark.source?).toList.map .resumed

/-- A piece with another one on the way out, with marks where a jump is held up. -/
inductive Behaviour.Routed (b last : Behaviour Mark) : Behaviour Mark
  /-- The piece is not watched to its end. -/
  | cut {t} : b t .cut → Routed b last t .cut
  /-- The way out ends normally, and what is pending goes on. -/
  | resumes {t₁ k₁ t₂} : b t₁ k₁ → k₁ ≠ .cut → last t₂ .normal →
      Routed b last (t₁ ++ k₁.entering ++ t₂ ++ k₁.leaving t₁) k₁
  /-- The way out ends in another way, and what was pending is forgotten. -/
  | overrides {t₁ k₁ t₂ k₂} : b t₁ k₁ → k₁ ≠ .cut → last t₂ k₂ → k₂ ≠ .normal →
      Routed b last (t₁ ++ k₁.entering ++ t₂) k₂

/-! ### Trails of programs -/

mutual
/-- The trails of a statement. -/
def Stmt.trails : Stmt → Behaviour Mark
  | .exprStmt offset _ => .single (.point offset) [.normal]
  | .declStmt offset _ => .single (.point offset) [.normal]
  | .throwStmt offset _ => .single (.point offset) [.threw]
  | .breakStmt offset _ => .single (.point offset) [.broke]
  | .continueStmt offset _ => .single (.point offset) [.continued]
  | .whileStmt _ test body =>
    .Loop (.single (.point test.offset) [.normal]) (test.truth? ≠ some false)
      (test.truth? ≠ some true) body.trails
  | .ifStmt _ test consequent none folded =>
    (single (.point test.offset) [.normal]).andThen <|
      .either (Stmt.decided? folded test ≠ some false) consequent.trails
        (Stmt.decided? folded test ≠ some true) .idle
  | .ifStmt _ test consequent (some alternate) folded =>
    (single (.point test.offset) [.normal]).andThen <|
      .either (Stmt.decided? folded test ≠ some false) consequent.trails
        (Stmt.decided? folded test ≠ some true) alternate.trails
  | .tryStmt _ block handler none _ => block.trails.caught handler.trails
  | .tryStmt _ block handler (some finalizer) _ =>
    .Routed (block.trails.caught handler.trails) finalizer.trails
  | .blockStmt block => block.trails
  | .unsupported .. => .idle
/-- The trails of a block. -/
def Block.trails : Block → Behaviour Mark
  | ⟨_, body⟩ => Stmt.trailsFrom body
/-- The trails of some statements, one after another. -/
def Stmt.trailsFrom : List Stmt → Behaviour Mark
  | [] => .idle
  | s :: rest => s.trails.andThen (Stmt.trailsFrom rest)
end

/-- The trails of a program. -/
def Program.trails (p : Program) : Behaviour Mark :=
  p.block.trails

/-! ### Trails of runs -/

/-- Every run of a piece has a trail that executes the same labels and ends in the same way. -/
def Traced (b : Behaviour Point) (c : Behaviour Mark) : Prop :=
  ∀ t k, b t k → ∃ trail, c trail k ∧ trail.filterMap Mark.label? = t.map (·.label)

section Traced

variable {b c : Behaviour Point} {b' c' : Behaviour Mark}

theorem traced_idle : Traced idle idle := by
  rintro t k ⟨rfl, rfl⟩
  exact ⟨[], ⟨rfl, rfl⟩, rfl⟩

theorem traced_single (x : Point) (ends : List Completion) :
    Traced (single x ends) (single (.point x.label) ends) := by
  rintro t k ⟨rfl, hk⟩
  exact ⟨[.point x.label], ⟨rfl, hk⟩, rfl⟩

theorem Traced.chain (hb : Traced b b') (hc : Traced c c') (via : Completion) :
    Traced (chain via b c) (chain via b' c') := by
  rintro t k (⟨h, hk⟩ | ⟨t₁, t₂, rfl, h₁, h₂⟩)
  · obtain ⟨trail, htrail, hlabels⟩ := hb t k h
    exact ⟨trail, Or.inl ⟨htrail, hk⟩, hlabels⟩
  · obtain ⟨trail₁, htrail₁, hlabels₁⟩ := hb t₁ via h₁
    obtain ⟨trail₂, htrail₂, hlabels₂⟩ := hc t₂ k h₂
    refine ⟨trail₁ ++ trail₂, Or.inr ⟨trail₁, trail₂, rfl, htrail₁, htrail₂⟩, ?_⟩
    rw [List.filterMap_append, List.map_append, hlabels₁, hlabels₂]

theorem Traced.either {P Q P' Q' : Prop} (hb : Traced b b') (hc : Traced c c') (hP : P → P')
    (hQ : Q → Q') : Traced (either P b Q c) (either P' b' Q' c') := by
  rintro t k (⟨h, hrun⟩ | ⟨h, hrun⟩)
  · obtain ⟨trail, htrail, hlabels⟩ := hb t k hrun
    exact ⟨trail, Or.inl ⟨hP h, htrail⟩, hlabels⟩
  · obtain ⟨trail, htrail, hlabels⟩ := hc t k hrun
    exact ⟨trail, Or.inr ⟨hQ h, htrail⟩, hlabels⟩

theorem Traced.loop {P Q P' Q' : Prop} (hb : Traced b b') (hc : Traced c c') (hP : P → P')
    (hQ : Q → Q') : Traced (Loop b P Q c) (Loop b' P' Q' c') := by
  intro t k h
  -- each round has a trail, by induction on the rounds
  induction h with
  | stop htest hk =>
    obtain ⟨trail, htrail, hlabels⟩ := hb _ _ htest
    exact ⟨trail, .stop htrail hk, hlabels⟩
  | done htest hfails =>
    obtain ⟨trail, htrail, hlabels⟩ := hb _ _ htest
    exact ⟨trail, .done htrail (hQ hfails), hlabels⟩
  | leave htest hholds hbody hk =>
    obtain ⟨trail₀, htrail₀, hlabels₀⟩ := hb _ _ htest
    obtain ⟨trail₁, htrail₁, hlabels₁⟩ := hc _ _ hbody
    refine ⟨trail₀ ++ trail₁, .leave htrail₀ (hP hholds) htrail₁ hk, ?_⟩
    rw [List.filterMap_append, List.map_append, hlabels₀, hlabels₁]
  | again htest hholds hbody hk _ ih =>
    obtain ⟨trail₀, htrail₀, hlabels₀⟩ := hb _ _ htest
    obtain ⟨trail₁, htrail₁, hlabels₁⟩ := hc _ _ hbody
    obtain ⟨trail₂, htrail₂, hlabels₂⟩ := ih
    refine ⟨trail₀ ++ trail₁ ++ trail₂, .again htrail₀ (hP hholds) htrail₁ hk htrail₂, ?_⟩
    rw [List.filterMap_append, List.filterMap_append, List.map_append, List.map_append, hlabels₀,
      hlabels₁, hlabels₂]

theorem filterMap_entering (k : Completion) : k.entering.filterMap Mark.label? = [] := by
  cases k <;> rfl

theorem filterMap_leaving (t : List Mark) (k : Completion) :
    (k.leaving t).filterMap Mark.label? = [] := by
  have hresumed : ∀ l : Option Label, (l.toList.map Mark.resumed).filterMap Mark.label? = [] := by
    intro l
    cases l <;> rfl
  cases k
  case normal => rfl
  all_goals exact hresumed _

theorem Traced.closing (hb : Traced b b') (hc : Traced c c') :
    Traced (closing b c) (Routed b' c') := by
  rintro t k (⟨h, rfl⟩ | ⟨t₁, k₁, t₂, k₂, rfl, h₁, hk₁, h₂, rfl⟩)
  · obtain ⟨trail, htrail, hlabels⟩ := hb t .cut h
    exact ⟨trail, .cut htrail, hlabels⟩
  · obtain ⟨trail₁, htrail₁, hlabels₁⟩ := hb t₁ k₁ h₁
    obtain ⟨trail₂, htrail₂, hlabels₂⟩ := hc t₂ k₂ h₂
    split
    next hk₂ =>
      subst hk₂
      refine ⟨_, .resumes htrail₁ hk₁ htrail₂, ?_⟩
      simp only [List.filterMap_append, filterMap_entering, filterMap_leaving, List.append_nil,
        List.map_append, hlabels₁, hlabels₂]
    next hk₂ =>
      refine ⟨_, .overrides htrail₁ hk₁ htrail₂ hk₂, ?_⟩
      simp only [List.filterMap_append, filterMap_entering, List.append_nil, List.map_append,
        hlabels₁, hlabels₂]

end Traced

theorem Stmt.traced_of_blocks (s : Stmt)
    (ih : ∀ b ∈ s.blocks, ∀ guarded address,
      Traced (b.runs (.strict false) guarded address) b.trails) (address : List Step) :
    Traced (s.runs (.strict false) address) s.trails := by
  -- a literal test takes its own side in both
  have hstrict : ∀ {Q : Prop}, (Reading.strict false).lenient = true ∨ Q → Q := fun h =>
    h.resolve_left (by decide)
  rcases s with _ | _ | ⟨offset, test, body⟩ | ⟨offset, test, consequent, _ | alternate, folded⟩ |
    _ | _ | _ | ⟨offset, block, handler, _ | finalizer, param⟩ | b | ⟨offset, tag⟩
  case whileStmt =>
    rw [Stmt.runs, Stmt.trails]
    exact (traced_single ⟨address, test.offset⟩ _).loop (ih body (by simp [blocks]) _ _) id hstrict
  case ifStmt.none =>
    rw [Stmt.runs, Stmt.trails]
    exact (traced_single ⟨address, test.offset⟩ _).chain
      ((ih consequent (by simp [blocks]) _ _).either traced_idle id hstrict) _
  case ifStmt.some =>
    rw [Stmt.runs, Stmt.trails]
    exact (traced_single ⟨address, test.offset⟩ _).chain
      ((ih consequent (by simp [blocks]) _ _).either (ih alternate (by simp [blocks]) _ _) id id) _
  case tryStmt.none =>
    rw [Stmt.runs, Stmt.trails]
    exact (ih block (by simp [blocks]) _ _).chain (ih handler (by simp [blocks]) _ _) _
  case tryStmt.some =>
    rw [Stmt.runs, Stmt.trails]
    exact ((ih block (by simp [blocks]) _ _).chain (ih handler (by simp [blocks]) _ _) _).closing
      (ih finalizer (by simp [blocks]) _ _)
  case blockStmt =>
    rw [Stmt.runs, Stmt.trails]
    exact ih b (by simp [blocks]) _ _
  case unsupported =>
    rw [Stmt.runs, Stmt.trails]
    exact traced_idle
  -- the other statements execute one point
  all_goals
    rw [Stmt.runs, Stmt.trails]
    exact traced_single ⟨address, _⟩ _

theorem Block.traced_of_body (b : Block)
    (ih : ∀ s ∈ b.body, ∀ address, Traced (s.runs (.strict false) address) s.trails)
    (guarded : Bool) (address : List Step) :
    Traced (b.runs (.strict false) guarded address) b.trails := by
  obtain ⟨offset, body⟩ := b
  rw [Block.runs, Block.trails]
  generalize address ++ [Step.child "body"] = address
  generalize 0 = i
  induction body generalizing i with
  | nil =>
    rw [Stmt.runsFrom, Stmt.trailsFrom]
    exact traced_idle
  | cons s rest ihrest =>
    rw [Stmt.runsFrom, Stmt.trailsFrom]
    exact (ih s List.mem_cons_self _).chain
      (ihrest (fun r hr => ih r (List.mem_cons_of_mem s hr)) (i + 1)) _

/-- Every run of a program in which only `throw` raises has a trail. -/
theorem Program.traced (p : Program) : Traced (p.runs (.strict false)) p.trails :=
  Block.of_body Stmt.traced_of_blocks Block.traced_of_body p.block false []

end Liveness
