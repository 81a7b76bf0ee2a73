/-
Liveness/Proofs/Built.lean

The code that the builder goes into.  `Stmt.built` lists the points of a statement
that the builder comes to: it leaves out what follows a statement that never
completes normally, the branch that a literal test never takes, the body of a loop
that is never entered and the handler of a block in which nothing runs.

Every label of a fragment is one of these points (`Stmt.within_built`), and so it
is a program point inside the statement (`Stmt.within`).
-/
import Liveness.Proofs.Reports

namespace Liveness

/-! ### Points that the builder comes to -/

mutual
/-- The points of a statement that the builder comes to, in the order of the text. -/
def Stmt.built : Stmt → List Label
  | .exprStmt offset _ => [offset]
  | .declStmt offset _ => [offset]
  | .throwStmt offset _ => [offset]
  | .breakStmt offset _ => [offset]
  | .continueStmt offset _ => [offset]
  | .whileStmt _ test body =>
    test.offset :: if test.truth? = some false then [] else body.built
  | .ifStmt _ test consequent none folded =>
    test.offset :: if Stmt.decided? folded test = some false then [] else consequent.built
  | .ifStmt _ test consequent (some alternate) folded =>
    test.offset ::
      ((if Stmt.decided? folded test = some false then [] else consequent.built) ++
        if Stmt.decided? folded test = some true then [] else alternate.built)
  | .tryStmt _ block handler none _ =>
    block.built ++ if block.fragment.isEmpty then [] else handler.built
  | .tryStmt _ block handler (some finalizer) _ =>
    block.built ++ (if block.fragment.isEmpty then [] else handler.built) ++
      finalizer.built
  | .blockStmt block => block.built
  | .unsupported .. => []
/-- The points of a block that the builder comes to. -/
def Block.built : Block → List Label
  | ⟨_, body⟩ => Stmt.builtFrom .empty body
/-- The points that the builder comes to in the statements of a block after those that gave `f`. -/
def Stmt.builtFrom (f : Fragment) : List Stmt → List Label
  | [] => []
  | s :: rest =>
    if f.reachesExit then s.built ++ Stmt.builtFrom (f.andThen s.offset s.fragment) rest else []
end

theorem Stmt.builtFrom_of_not_reachesExit {f : Fragment} (ss : List Stmt)
    (h : ¬ f.reachesExit = true) : Stmt.builtFrom f ss = [] := by
  cases ss with
  | nil => rw [Stmt.builtFrom]
  | cons s rest => rw [Stmt.builtFrom, if_neg h]

/-- How the builder comes to a point of a statement. -/
inductive Stmt.Builds (s : Stmt) (l : Label) : Prop
  /-- The point is the statement's own. -/
  | own : s.point? = some l → Builds s l
  /-- The point stands in a block that is entered. -/
  | inside {x b} : s.Enters x b → l ∈ b.built → Builds s l
  /-- Bare braces are the block between them. -/
  | braces {b} : s = .blockStmt b → l ∈ b.built → Builds s l

section Built

variable {s : Stmt} {b : Block} {x : Step} {l : Label}

theorem Stmt.mem_built_of_point? (h : s.point? = some l) : l ∈ s.built := by
  rcases s with _ | _ | _ | ⟨_, _, _, _ | _, _⟩ | _ | _ | _ | ⟨_, _, _, _ | _, _⟩ | _ | _ <;>
    cases h <;> rw [Stmt.built] <;> exact List.mem_cons_self

/-- What the builder comes to in a block that it enters is part of what it comes to in the
statement. -/
theorem Stmt.Enters.built_subset (h : s.Enters x b) : b.built ⊆ s.built := by
  intro l hl
  cases h with
  | whileBody ht =>
    rw [Stmt.built, if_neg ht]
    exact List.mem_cons_of_mem _ hl
  | @consequent _ _ _ alternate _ hd =>
    cases alternate with
    | none =>
      rw [Stmt.built, if_neg hd]
      exact List.mem_cons_of_mem _ hl
    | some alternate =>
      rw [Stmt.built, if_neg hd]
      exact List.mem_cons_of_mem _ (List.mem_append_left _ hl)
  | alternate hd =>
    rw [Stmt.built, if_neg hd]
    exact List.mem_cons_of_mem _ (List.mem_append_right _ hl)
  | @guarded _ _ _ finalizer _ =>
    cases finalizer with
    | none =>
      rw [Stmt.built]
      exact List.mem_append_left _ hl
    | some finalizer =>
      rw [Stmt.built]
      exact List.mem_append_left _ (List.mem_append_left _ hl)
  | @handler _ _ _ finalizer _ hb =>
    cases finalizer with
    | none =>
      rw [Stmt.built, if_neg fun hi => hb (Fragment.isEmpty_iff.mp hi)]
      exact List.mem_append_right _ hl
    | some finalizer =>
      rw [Stmt.built, if_neg fun hi => hb (Fragment.isEmpty_iff.mp hi)]
      exact List.mem_append_left _ (List.mem_append_right _ hl)
  | finalizer =>
    rw [Stmt.built]
    exact List.mem_append_right _ hl

theorem mem_of_mem_ite {P : Prop} [Decidable P] {points : List Label}
    (h : l ∈ if P then [] else points) : ¬ P ∧ l ∈ points := by
  split at h
  · cases h
  · exact ⟨‹_›, h⟩

theorem Stmt.builds (h : l ∈ s.built) : s.Builds l := by
  rcases s with _ | _ | ⟨offset, test, body⟩ | ⟨offset, test, consequent, _ | alternate, folded⟩ |
    _ | _ | _ | ⟨offset, block, handler, _ | finalizer, param⟩ | b | ⟨offset, tag⟩
  case whileStmt =>
    rw [Stmt.built] at h
    rcases List.mem_cons.mp h with rfl | h
    · exact .own rfl
    · obtain ⟨ht, h⟩ := mem_of_mem_ite h
      exact .inside (.whileBody ht) h
  case ifStmt.none =>
    rw [Stmt.built] at h
    rcases List.mem_cons.mp h with rfl | h
    · exact .own rfl
    · obtain ⟨hd, h⟩ := mem_of_mem_ite h
      exact .inside (.consequent hd) h
  case ifStmt.some =>
    rw [Stmt.built] at h
    rcases List.mem_cons.mp h with rfl | h
    · exact .own rfl
    rcases List.mem_append.mp h with h | h
    · obtain ⟨hd, h⟩ := mem_of_mem_ite h
      exact .inside (.consequent hd) h
    · obtain ⟨hd, h⟩ := mem_of_mem_ite h
      exact .inside (.alternate hd) h
  case tryStmt.none =>
    rw [Stmt.built] at h
    rcases List.mem_append.mp h with h | h
    · exact .inside .guarded h
    · obtain ⟨hb, h⟩ := mem_of_mem_ite h
      exact .inside (.handler fun hi => hb (Fragment.isEmpty_iff.mpr hi)) h
  case tryStmt.some =>
    rw [Stmt.built] at h
    rcases List.mem_append.mp h with h | h
    · rcases List.mem_append.mp h with h | h
      · exact .inside .guarded h
      · obtain ⟨hb, h⟩ := mem_of_mem_ite h
        exact .inside (.handler fun hi => hb (Fragment.isEmpty_iff.mpr hi)) h
    · exact .inside .finalizer h
  case blockStmt =>
    rw [Stmt.built] at h
    exact .braces rfl h
  case unsupported =>
    rw [Stmt.built] at h
    cases h
  -- the other statements have one point, which is their own
  all_goals
    rw [Stmt.built] at h
    exact .own (congrArg some (List.mem_singleton.mp h).symm)

end Built

/-! ### Built points are program points -/

theorem Stmt.builtFrom_subset {ss : List Stmt} {f : Fragment}
    (hss : ∀ s ∈ ss, s.built ⊆ s.points) :
    Stmt.builtFrom f ss ⊆ (Stmt.flatten ss).filterMap Stmt.point? := by
  intro l hl
  induction ss generalizing f with
  | nil =>
    rw [Stmt.builtFrom] at hl
    cases hl
  | cons s rest ih =>
    rw [Stmt.builtFrom] at hl
    rw [Stmt.points_flatten_cons]
    split at hl
    · rcases List.mem_append.mp hl with hl | hl
      · exact List.mem_append_left _ (hss s List.mem_cons_self hl)
      · exact List.mem_append_right _ (ih (fun r hr => hss r (List.mem_cons_of_mem s hr)) hl)
    · cases hl

theorem Stmt.built_subset (s : Stmt) : s.built ⊆ s.points := by
  refine Stmt.of_blocks (P := fun s => s.built ⊆ s.points) (Q := fun b => b.built ⊆ b.points)
    ?_ ?_ s
  · intro s ih l hl
    cases Stmt.builds hl with
    | own h => exact Stmt.mem_points_of_point? h
    | inside he hl => exact Block.points_subset he.mem_blocks (ih _ he.mem_blocks hl)
    | @braces b hs hl =>
      have hb : b ∈ s.blocks := by rw [hs]; exact List.mem_singleton_self b
      exact Block.points_subset hb (ih b hb hl)
  · rintro ⟨offset, body⟩ ih
    rw [Block.built, Block.points, Block.statements]
    exact Stmt.builtFrom_subset ih

/-! ### Labels of fragments are built points -/

theorem Stmt.within_built_of_blocks (s : Stmt)
    (ih : ∀ b ∈ s.blocks, b.fragment.Within b.built) : s.fragment.Within s.built := by
  -- an entered block brings its own labels, and they are built in the statement too
  have hinside : ∀ {x b}, s.Enters x b → b.fragment.Within s.built := fun he =>
    (ih _ he.mem_blocks).mono he.built_subset
  have hown : ∀ {l}, s.point? = some l → l ∈ s.built := Stmt.mem_built_of_point?
  rcases s with _ | _ | ⟨offset, test, body⟩ | ⟨offset, test, consequent, _ | alternate, folded⟩ |
    _ | _ | _ | ⟨offset, block, handler, _ | finalizer, param⟩ | b | ⟨offset, tag⟩
  case exprStmt => rw [Stmt.fragment]; exact Fragment.within_step (hown rfl)
  case declStmt => rw [Stmt.fragment]; exact Fragment.within_step (hown rfl)
  case throwStmt => rw [Stmt.fragment]; exact Fragment.within_throwing (hown rfl)
  case breakStmt => rw [Stmt.fragment]; exact Fragment.within_breaking (hown rfl)
  case continueStmt => rw [Stmt.fragment]; exact Fragment.within_continuing (hown rfl)
  case whileStmt =>
    rw [Stmt.fragment]
    split
    next => exact Fragment.within_step (hown rfl)
    next ht => exact Fragment.within_loop (hown rfl) (hinside (.whileBody ht))
  case ifStmt.none =>
    rw [Stmt.fragment]
    refine Fragment.within_choice (hown rfl) _ ?_
    split
    next => simp [Fragment.within_empty]
    next hd => simpa using hinside (.consequent hd)
  case ifStmt.some =>
    rw [Stmt.fragment]
    refine Fragment.within_choice (hown rfl) _ ?_
    split
    next hd => simpa using hinside (.consequent (by rw [hd]; decide))
    next hd => simpa using hinside (.alternate (by rw [hd]; decide))
    next hd =>
      have hc := hinside (.consequent (by rw [hd]; decide))
      have ha := hinside (.alternate (by rw [hd]; decide))
      simp [hc, ha]
  case tryStmt.none =>
    rw [Stmt.fragment]
    exact Fragment.within_guarded (hinside .guarded) (fun hb => hinside (.handler hb))
      Fragment.within_empty
  case tryStmt.some =>
    rw [Stmt.fragment]
    exact Fragment.within_guarded (hinside .guarded) (fun hb => hinside (.handler hb))
      (hinside .finalizer)
  case blockStmt =>
    rw [Stmt.fragment, Stmt.built]
    exact ih b (List.mem_singleton_self b)
  case unsupported => rw [Stmt.fragment]; exact Fragment.within_empty

theorem Stmt.within_sequence {ss : List Stmt} {f : Fragment} {points : List Label}
    (hf : f.Within points) (hsub : Stmt.builtFrom f ss ⊆ points)
    (hss : ∀ s ∈ ss, s.fragment.Within s.built) : (Stmt.sequence f ss).Within points := by
  induction ss generalizing f with
  | nil =>
    rw [Stmt.sequence]
    exact hf
  | cons s rest ih =>
    rw [Stmt.builtFrom] at hsub
    rw [Stmt.sequence]
    split
    next hr =>
      rw [if_pos hr] at hsub
      obtain ⟨hs, hrest⟩ := List.append_subset.mp hsub
      have hnext := (hss s List.mem_cons_self).mono hs
      exact ih (hf.andThen hnext s.offset) hrest fun r hr => hss r (List.mem_cons_of_mem s hr)
    next => exact hf

theorem Block.within_built_of_body (b : Block)
    (ih : ∀ s ∈ b.body, s.fragment.Within s.built) : b.fragment.Within b.built := by
  obtain ⟨offset, body⟩ := b
  rw [Block.fragment, Block.built]
  exact Stmt.within_sequence Fragment.within_empty (List.Subset.refl _) ih

/-- Every label of a statement's fragment is a point that the builder comes to. -/
theorem Stmt.within_built (s : Stmt) : s.fragment.Within s.built :=
  Stmt.of_blocks Stmt.within_built_of_blocks Block.within_built_of_body s

/-- Every label of a block's fragment is a point that the builder comes to. -/
theorem Block.within_built (b : Block) : b.fragment.Within b.built :=
  Block.of_body Stmt.within_built_of_blocks Block.within_built_of_body b

/-- Every label of a statement's fragment is a program point inside the statement. -/
theorem Stmt.within (s : Stmt) : s.fragment.Within s.points :=
  s.within_built.mono s.built_subset

end Liveness
