/-
Liveness/Proofs/Fragments.lean

What holds of every fragment that the builder makes.  A fragment without an entry
is the empty one; any other has last labels exactly if it can end normally; one
that cannot end normally is left by some jump; and a `throw` that every run meets
is one of those that leave the fragment, which then cannot end normally.

Each operation on fragments is first taken apart: what it gives if its parts are
empty, and what if they are not.  It keeps the facts above (`Coherent`), so by
induction over the tree they hold of statements and blocks.

A block in which something runs has an entry for its handler to be entered from,
wherever the first sure `throw` cuts the list of entries (`sources_ne_nil`).

The builder folds constant tests on its way.  What it makes of an `if` is what it
makes of the branches that folding leaves (`Stmt.fragment_ifStmt`,
`Stmt.events_ifStmt`).
-/
import Liveness.Flow.Build

namespace Liveness

namespace Fragment

/-! ### The operations, case by case -/

theorem isEmpty_iff {f : Fragment} : f.isEmpty = true ↔ f.initial = none :=
  Option.isNone_iff_eq_none

theorem isEmpty_ne_true {f : Fragment} {l : Label} (h : f.initial = some l) : f.isEmpty ≠ true := by
  rw [ne_eq, isEmpty_iff, h]
  exact Option.some_ne_none l

theorem andThen_of_none {f next : Fragment} (offset : Int) (h : next.initial = none) :
    f.andThen offset next = f := by
  rw [andThen, h]

theorem andThen_of_some {f next : Fragment} {entry : Label} (offset : Int)
    (h : next.initial = some entry) :
    f.andThen offset next =
      { initial := f.initial.or (some entry)
        finals := next.exits
        flows := f.flows ++ f.finals.map (·, entry) ++ next.flows
        throwAt := f.throwAt.or next.throwAt
        breaks := f.breaks ++ next.breaks
        continues := f.continues ++ next.continues
        raises := f.raises ++ next.raises
        reachesExit := next.reachesExit
        entries := f.entries ++ [(offset, entry)] } := by
  rw [andThen, h]

theorem loop_of_none {body : Fragment} (test : Label) (h : body.initial = none) :
    loop test body = { initial := some test, finals := [test], flows := [(test, test)] } := by
  rw [loop, h]

theorem loop_of_some {body : Fragment} {entry : Label} (test : Label)
    (h : body.initial = some entry) :
    loop test body =
      { initial := some test
        finals := unique (test :: body.breaks)
        flows := (test, entry) :: body.flows ++
          (unique (body.exits ++ body.continues)).map (·, test)
        raises := body.raises } := by
  rw [loop, h]

/-- The labels after which a block and its handler end normally, with nothing on the way out. -/
def guardExits (block handler : Fragment) : List Label :=
  unique (block.exits ++ if handler.isEmpty then block.sources else handler.exits)

/-- The edges into a handler and inside it. -/
def handled (block handler : Fragment) : List Flow :=
  match handler.initial with
  | none => []
  | some first => block.sources.map (·, first) ++ handler.flows

/-- The `throw` that every run of a block and its handler meets. -/
def rethrown (block handler : Fragment) : Option Label :=
  if block.throwAt.isSome then handler.throwAt else none

theorem guarded_of_empty {block : Fragment} (handler finalizer : Fragment)
    (h : block.initial = none) : guarded block handler finalizer = finalizer := by
  rw [guarded, h]

/-- A guarded block with nothing on the way out. -/
theorem guarded_open {block finalizer : Fragment} {entry : Label} (handler : Fragment)
    (h : block.initial = some entry) (hlast : finalizer.initial = none) :
    guarded block handler finalizer =
      { initial := some entry
        finals := guardExits block handler
        flows := block.flows ++ handled block handler
        throwAt := rethrown block handler
        breaks := block.breaks ++ handler.breaks ++ finalizer.breaks
        continues := block.continues ++ handler.continues ++ finalizer.continues
        raises := handler.raises
        reachesExit := !(guardExits block handler).isEmpty } := by
  rw [guarded, h, hlast]
  rfl

/-- A guarded block with something on the way out. -/
theorem guarded_closed {block finalizer : Fragment} {entry last : Label} (handler : Fragment)
    (h : block.initial = some entry) (hlast : finalizer.initial = some last) :
    guarded block handler finalizer =
      let resumes := !(guardExits block handler).isEmpty && finalizer.reachesExit
      { initial := some entry
        finals := if resumes then finalizer.finals else []
        flows := block.flows ++ handled block handler ++
          (unique (guardExits block handler ++ handler.raises)).map (·, last) ++ finalizer.flows
        throwAt := if resumes then none else finalizer.throwAt.or (rethrown block handler)
        breaks := block.breaks ++ handler.breaks ++ finalizer.breaks
        continues := block.continues ++ handler.continues ++ finalizer.continues
        raises := unique (handler.raises ++ finalizer.raises)
        reachesExit := resumes } := by
  rw [guarded, h, hlast]
  rfl

theorem initial_loop (test : Label) (body : Fragment) : (loop test body).initial = some test := by
  rw [loop]
  split <;> rfl

theorem reachesExit_loop (test : Label) (body : Fragment) :
    (loop test body).reachesExit = true := by
  rw [loop]
  split <;> rfl

theorem reachesExit_choice {test : Label} {withoutElse : Bool} {branches : List Fragment}
    {b : Fragment} (hb : b ∈ branches) (hr : b.reachesExit = true) :
    (choice test withoutElse branches).reachesExit = true := by
  refine Bool.or_eq_true_iff.mpr (Or.inr (List.any_eq_true.mpr ⟨b, hb, ?_⟩))
  rw [hr, Bool.or_true]

theorem initial_guarded (block handler finalizer : Fragment) :
    (guarded block handler finalizer).initial = block.initial.or finalizer.initial := by
  rcases hb : block.initial with - | entry
  · rw [guarded_of_empty _ _ hb]
    rfl
  rcases hf : finalizer.initial with - | last
  · rw [guarded_open handler hb hf]
    rfl
  · rw [guarded_closed handler hb hf]
    rfl

theorem initial_andThen (f next : Fragment) (offset : Int) :
    (f.andThen offset next).initial = f.initial.or next.initial := by
  rcases hn : next.initial with - | entry
  · rw [andThen_of_none offset hn]
    exact Option.or_none.symm
  · rw [andThen_of_some offset hn]

theorem reachesExit_andThen {f next : Fragment} (offset : Int) (hf : f.reachesExit = true)
    (hnext : next.reachesExit = true) : (f.andThen offset next).reachesExit = true := by
  rw [andThen]
  split
  · exact hf
  · exact hnext

theorem reachesExit_guarded {block handler finalizer : Fragment} (hne : block.initial ≠ none)
    (hexits : guardExits block handler ≠ []) (hf : finalizer.reachesExit = true) :
    (guarded block handler finalizer).reachesExit = true := by
  obtain ⟨entry, hb⟩ := Option.ne_none_iff_exists'.mp hne
  rcases hlast : finalizer.initial with - | last
  · rw [guarded_open handler hb hlast]
    simpa using hexits
  · rw [guarded_closed handler hb hlast]
    simpa [hf] using hexits

/-- The edges of a guarded block in which something runs. -/
theorem flows_subset_guarded {block handler finalizer : Fragment} (hne : block.initial ≠ none) :
    block.flows ++ handled block handler ⊆ (guarded block handler finalizer).flows := by
  obtain ⟨entry, hb⟩ := Option.ne_none_iff_exists'.mp hne
  rcases hlast : finalizer.initial with - | last
  · rw [guarded_open handler hb hlast]
    exact List.Subset.refl _
  · rw [guarded_closed handler hb hlast]
    intro e he
    exact List.mem_append_left _ (List.mem_append_left _ he)

/-! ### Coherent fragments -/

/-- The facts about a fragment that every operation keeps. -/
structure Coherent (f : Fragment) : Prop where
  /-- Nothing is known of a fragment in which nothing runs. -/
  eq_empty : f.initial = none → f = .empty
  /-- A fragment in which something runs has last labels exactly if it can end normally. -/
  finals_iff : f.initial ≠ none → (f.finals ≠ [] ↔ f.reachesExit = true)
  /-- What cannot end normally is left by a jump. -/
  abrupt : f.reachesExit = false → f.raises ≠ [] ∨ f.breaks ≠ [] ∨ f.continues ≠ []
  /-- A `throw` that every run meets leaves the fragment, which then cannot end normally. -/
  throws : ∀ l, f.throwAt = some l → l ∈ f.raises ∧ f.reachesExit = false

namespace Coherent

variable {f : Fragment}

theorem exits_iff (h : f.Coherent) (hf : f.initial ≠ none) :
    f.exits ≠ [] ↔ f.reachesExit = true := by
  by_cases hr : f.reachesExit = true
  · rw [exits, if_pos hr, h.finals_iff hf]
  · rw [exits, if_neg hr]
    exact ⟨fun hne => absurd rfl hne, fun h' => absurd h' hr⟩

theorem initial_ne_none (h : f.Coherent) (hr : f.reachesExit = false) : f.initial ≠ none := by
  intro hf
  rw [h.eq_empty hf] at hr
  cases hr

theorem throwAt_eq_none (h : f.Coherent) (hr : f.reachesExit = true) : f.throwAt = none := by
  rcases ht : f.throwAt with - | l
  · rfl
  · rw [(h.throws l ht).2] at hr
    cases hr

end Coherent

theorem coherent_empty : Coherent .empty :=
  ⟨fun _ => rfl, fun h => absurd rfl h, nofun, nofun⟩

theorem coherent_step (label : Label) : (step label).Coherent :=
  ⟨nofun, fun _ => by simp [step], nofun, nofun⟩

theorem coherent_throwing (label : Label) : (throwing label).Coherent := by
  refine ⟨nofun, fun _ => by simp [throwing], fun _ => by simp [throwing], ?_⟩
  intro l hl
  obtain rfl := Option.some.inj hl
  exact ⟨List.mem_singleton_self _, rfl⟩

theorem coherent_breaking (label : Label) : (breaking label).Coherent :=
  ⟨nofun, fun _ => by simp [breaking], fun _ => by simp [breaking], nofun⟩

theorem coherent_continuing (label : Label) : (continuing label).Coherent :=
  ⟨nofun, fun _ => by simp [continuing], fun _ => by simp [continuing],
    nofun⟩

theorem abrupt_append_left {r b c : List Label} (r' b' c' : List Label)
    (h : r ≠ [] ∨ b ≠ [] ∨ c ≠ []) : r ++ r' ≠ [] ∨ b ++ b' ≠ [] ∨ c ++ c' ≠ [] := by
  rcases h with h | h | h
  · exact Or.inl (List.append_ne_nil_of_left_ne_nil h r')
  · exact Or.inr (Or.inl (List.append_ne_nil_of_left_ne_nil h b'))
  · exact Or.inr (Or.inr (List.append_ne_nil_of_left_ne_nil h c'))

theorem abrupt_append_right (r b c : List Label) {r' b' c' : List Label}
    (h : r' ≠ [] ∨ b' ≠ [] ∨ c' ≠ []) : r ++ r' ≠ [] ∨ b ++ b' ≠ [] ∨ c ++ c' ≠ [] := by
  rcases h with h | h | h
  · exact Or.inl (List.append_ne_nil_of_right_ne_nil r h)
  · exact Or.inr (Or.inl (List.append_ne_nil_of_right_ne_nil b h))
  · exact Or.inr (Or.inr (List.append_ne_nil_of_right_ne_nil c h))

/-- What comes after a fragment that can end normally decides how the whole is left. -/
theorem Coherent.andThen {f next : Fragment} (hf : f.Coherent) (hnext : next.Coherent)
    (hr : f.reachesExit = true) (offset : Int) : (f.andThen offset next).Coherent := by
  rcases hn : next.initial with - | entry
  · rw [andThen_of_none offset hn]
    exact hf
  · have hne : next.initial ≠ none := by rw [hn]; exact Option.some_ne_none _
    rw [andThen_of_some offset hn]
    refine ⟨fun h => ?_, fun _ => hnext.exits_iff hne, fun h => ?_, fun l hl => ?_⟩
    · cases hi : f.initial <;> rw [hi] at h <;> cases h
    · exact abrupt_append_right _ _ _ (hnext.abrupt h)
    · -- `f` can end normally, so the `throw` is one of `next`
      rw [hf.throwAt_eq_none hr] at hl
      obtain ⟨hmem, hexit⟩ := hnext.throws l hl
      exact ⟨List.mem_append_right _ hmem, hexit⟩

theorem unique_eq_nil_iff {xs : List Label} : unique xs = [] ↔ xs = [] := by
  cases xs with
  | nil => simp
  | cons x xs => simp [unique]

theorem Coherent.branchExits_eq_nil_iff {b : Fragment} (h : b.Coherent) (test : Label) :
    branchExits test b = [] ↔ (b.isEmpty || b.reachesExit) = false := by
  by_cases hb : b.isEmpty = true
  · rw [branchExits, if_pos hb, hb]
    simp
  · have hne : b.initial ≠ none := fun hi => hb (isEmpty_iff.mpr hi)
    rw [branchExits, if_neg hb, Bool.eq_false_iff.mpr hb, Bool.false_or, ← Bool.not_eq_true,
      ← h.exits_iff hne, Decidable.not_not]

theorem coherent_choice {branches : List Fragment} (test : Label) (withoutElse : Bool)
    (h : ∀ b ∈ branches, b.Coherent) (hne : branches ≠ []) :
    (choice test withoutElse branches).Coherent := by
  refine ⟨nofun, fun _ => ?_, fun hr => ?_, fun l hl => ?_⟩
  · have hfinals : (choice test withoutElse branches).finals = [] ↔
        (choice test withoutElse branches).reachesExit = false := by
      show unique _ = [] ↔ (withoutElse || _) = false
      rw [unique_eq_nil_iff, List.append_eq_nil_iff, List.flatMap_eq_nil_iff,
        Bool.or_eq_false_iff, List.any_eq_false, and_comm]
      refine and_congr (by cases withoutElse <;> simp) ?_
      refine forall_congr' fun b => forall_congr' fun hb => ?_
      rw [(h b hb).branchExits_eq_nil_iff, Bool.not_eq_true]
    rw [ne_eq, hfinals, Bool.not_eq_false]
  · -- no branch ends normally, so a jump leaves the first one
    obtain ⟨-, hany⟩ := Bool.or_eq_false_iff.mp hr
    obtain ⟨b, hb⟩ := List.exists_mem_of_ne_nil _ hne
    have hbr := List.any_eq_false.mp hany b hb
    rw [Bool.not_eq_true, Bool.or_eq_false_iff] at hbr
    have hflat : ∀ g : Fragment → List Label, g b ≠ [] → branches.flatMap g ≠ [] :=
      fun g hg hnil => hg (List.flatMap_eq_nil_iff.mp hnil b hb)
    rcases (h b hb).abrupt hbr.2 with hj | hj | hj
    · exact Or.inl (hflat _ hj)
    · exact Or.inr (Or.inl (hflat _ hj))
    · exact Or.inr (Or.inr (hflat _ hj))
  · have hcond : (!withoutElse && branches.all (·.throwAt.isSome)) = true := by
      rcases Decidable.em ((!withoutElse && branches.all (·.throwAt.isSome)) = true) with hc | hc
      · exact hc
      · simp only [choice, if_neg hc] at hl
        cases hl
    obtain ⟨hw, hall⟩ := Bool.and_eq_true_iff.mp hcond
    simp only [choice, if_pos hcond] at hl
    obtain ⟨b, hhead, hb⟩ := Option.bind_eq_some_iff.mp hl
    have hmem : b ∈ branches := List.mem_of_head? hhead
    refine ⟨List.mem_flatMap.mpr ⟨b, hmem, ((h b hmem).throws l hb).1⟩, ?_⟩
    -- every branch throws, so none is empty and none ends normally
    refine Bool.or_eq_false_iff.mpr ⟨by simpa using hw, List.any_eq_false.mpr fun c hc => ?_⟩
    obtain ⟨l', hl'⟩ := Option.isSome_iff_exists.mp (List.all_eq_true.mp hall c hc)
    have hcr := ((h c hc).throws l' hl').2
    have hci : c.isEmpty ≠ true := fun hi => (h c hc).initial_ne_none hcr (isEmpty_iff.mp hi)
    rw [Bool.eq_false_iff.mpr hci, hcr]
    decide

theorem coherent_loop (test : Label) (body : Fragment) : (loop test body).Coherent := by
  rcases hb : body.initial with - | entry
  · rw [loop_of_none test hb]
    exact ⟨nofun, fun _ => by simp, nofun, nofun⟩
  · rw [loop_of_some test hb]
    exact ⟨nofun, fun _ => by simp [unique], nofun, nofun⟩

/-! ### Guarded blocks -/

section Guarded

variable {block handler finalizer : Fragment}

theorem guardExits_eq_nil_iff : guardExits block handler = [] ↔
    block.exits = [] ∧ (if handler.isEmpty then block.sources else handler.exits) = [] := by
  rw [guardExits, unique_eq_nil_iff, List.append_eq_nil_iff]

theorem raises_subset_sources {l : Label} (h : l ∈ block.raises) : l ∈ block.sources :=
  mem_unique.mpr (List.mem_append_right _ h)

/-- If neither a block nor its handler ends normally, some jump leaves them. -/
theorem abrupt_of_guardExits_eq_nil (hb : block.Coherent) (hh : handler.Coherent)
    (hne : block.initial ≠ none) (h : guardExits block handler = []) :
    handler.raises ≠ [] ∨ block.breaks ++ handler.breaks ≠ [] ∨
      block.continues ++ handler.continues ≠ [] := by
  obtain ⟨hexits, hhandler⟩ := guardExits_eq_nil_iff.mp h
  have hbr : block.reachesExit = false := by
    rw [← Bool.not_eq_true, ← hb.exits_iff hne]
    exact fun hne => hne hexits
  rcases hb.abrupt hbr with hj | hj | hj
  · -- the handler is entered from a `throw` of the block, so it is not left out
    obtain ⟨l, hl⟩ := List.exists_mem_of_ne_nil _ hj
    have hhi : handler.isEmpty ≠ true := by
      intro hi
      rw [if_pos hi] at hhandler
      exact List.ne_nil_of_mem (raises_subset_sources hl) hhandler
    rw [if_neg hhi] at hhandler
    have hhr : handler.reachesExit = false := by
      rw [← Bool.not_eq_true, ← hh.exits_iff fun hi => hhi (isEmpty_iff.mpr hi)]
      exact fun hne => hne hhandler
    exact abrupt_append_right [] block.breaks block.continues (hh.abrupt hhr)
  · exact Or.inr (Or.inl (List.append_ne_nil_of_left_ne_nil hj _))
  · exact Or.inr (Or.inr (List.append_ne_nil_of_left_ne_nil hj _))

theorem of_rethrown {l : Label} (hb : block.Coherent) (hh : handler.Coherent)
    (h : rethrown block handler = some l) : l ∈ handler.raises ∧ guardExits block handler = [] := by
  have hbt : block.throwAt.isSome = true := by
    rcases Decidable.em (block.throwAt.isSome = true) with hc | hc
    · exact hc
    · rw [rethrown, if_neg hc] at h
      cases h
  rw [rethrown, if_pos hbt] at h
  obtain ⟨l', hl'⟩ := Option.isSome_iff_exists.mp hbt
  obtain ⟨hraises, hhr⟩ := hh.throws l h
  have hhi : handler.isEmpty ≠ true := fun hi => hh.initial_ne_none hhr (isEmpty_iff.mp hi)
  refine ⟨hraises, guardExits_eq_nil_iff.mpr ⟨?_, ?_⟩⟩
  · rw [exits, (hb.throws l' hl').2]
    rfl
  · rw [if_neg hhi, exits, hhr]
    rfl

theorem coherent_guarded (hb : block.Coherent) (hh : handler.Coherent)
    (hf : finalizer.Coherent) : (guarded block handler finalizer).Coherent := by
  rcases hi : block.initial with - | entry
  · -- nothing raises, so what is left is what runs on the way out
    rw [guarded_of_empty _ _ hi]
    exact hf
  have hne : block.initial ≠ none := by rw [hi]; exact Option.some_ne_none _
  rcases hlast : finalizer.initial with - | last
  · rw [guarded_open handler hi hlast, hf.eq_empty hlast]
    refine ⟨nofun, fun _ => ?_, fun hr => ?_, fun l hl => ?_⟩
    · simp
    · have hnil : guardExits block handler = [] := by simpa using hr
      simpa [empty] using abrupt_of_guardExits_eq_nil hb hh hne hnil
    · obtain ⟨hl, hnil⟩ := of_rethrown hb hh hl
      exact ⟨hl, by simp [hnil]⟩
  · have hlne : finalizer.initial ≠ none := by rw [hlast]; exact Option.some_ne_none _
    rw [guarded_closed handler hi hlast]
    refine ⟨nofun, fun _ => ?_, fun hr => ?_, fun l hl => ?_⟩
    · dsimp only
      split
      next hres => exact iff_of_true ((hf.finals_iff hlne).mpr (Bool.and_eq_true_iff.mp hres).2) hres
      next hres => exact iff_of_false (fun h => h rfl) hres
    · rw [ne_eq, unique_eq_nil_iff]
      rcases Bool.and_eq_false_iff.mp hr with hr | hr
      · have hnil : guardExits block handler = [] := by simpa using hr
        exact abrupt_append_left _ _ _ (abrupt_of_guardExits_eq_nil hb hh hne hnil)
      · exact abrupt_append_right _ _ _ (hf.abrupt hr)
    · dsimp only at hl ⊢
      rw [mem_unique, List.mem_append]
      split at hl
      next => cases hl
      next hres =>
        refine ⟨?_, Bool.eq_false_iff.mpr hres⟩
        -- a `throw` on the way out takes the place of one that is pending
        rcases Option.or_eq_some_iff.mp hl with hl | ⟨-, hl⟩
        · exact Or.inr (hf.throws l hl).1
        · exact Or.inl (of_rethrown hb hh hl).1

end Guarded

end Fragment

/-! ### Folded tests -/

theorem Block.fragment_nil (offset : Int) : Block.fragment ⟨offset, []⟩ = .empty := by
  rw [Block.fragment, Stmt.sequence]

theorem Block.events_nil (offset : Int) : Block.events ⟨offset, []⟩ = [] := by
  rw [Block.events, Stmt.sequenceEvents]

namespace Stmt

/-- What folding leaves of a statement, with what it notices. -/
def afterFolding (s : Stmt) : Stmt × List Event :=
  s.fold?.getD (s, [])

section IfStmt

variable (offset : Int) (test : Expr) (consequent : Block) (alternate : Option Block)
  (folded : Bool)

/-- An `if` is built from the branches that folding leaves.  Whether it has an `else` is told by the
statement itself, since its folded form never has one. -/
theorem fragment_ifStmt :
    (ifStmt offset test consequent alternate folded).fragment =
      .choice test.offset alternate.isNone
        ((ifStmt offset test consequent alternate folded).afterFolding.1.blocks.map
          Block.fragment) := by
  rcases alternate with _ | alternate <;> rcases hd : decided? folded test with _ | _ | _ <;>
    simp [Stmt.fragment, afterFolding, fold?, blocks, Block.fragment_nil, hd]

/-- What is noticed about an `if` is what folding notices, and then what is noticed about the
branches that it leaves. -/
theorem events_ifStmt :
    (ifStmt offset test consequent alternate folded).events =
      (ifStmt offset test consequent alternate folded).afterFolding.2 ++
        (ifStmt offset test consequent alternate folded).afterFolding.1.blocks.flatMap
          Block.events := by
  rcases alternate with _ | alternate <;> rcases hd : decided? folded test with _ | _ | _ <;>
    simp [Stmt.events, afterFolding, fold?, blocks, Event.drop?, Block.events_nil, hd]

/-- What holds where nothing runs and of the branches of an `if` holds of those that folding
leaves. -/
theorem forall_fragment_afterFolding {P : Fragment → Prop} (hempty : P .empty)
    (h : ∀ b ∈ (ifStmt offset test consequent alternate folded).blocks, P b.fragment) :
    ∀ f ∈ (ifStmt offset test consequent alternate folded).afterFolding.1.blocks.map
      Block.fragment, P f := by
  rcases alternate with _ | alternate <;> rcases hd : decided? folded test with _ | _ | _ <;>
    simp_all [afterFolding, fold?, blocks, Block.fragment_nil]

end IfStmt

end Stmt

/-! ### Statements and blocks -/

mutual
theorem Stmt.coherent : (s : Stmt) → s.fragment.Coherent
  | .exprStmt offset _ => by rw [Stmt.fragment]; exact Fragment.coherent_step offset
  | .declStmt offset _ => by rw [Stmt.fragment]; exact Fragment.coherent_step offset
  | .throwStmt offset _ => by rw [Stmt.fragment]; exact Fragment.coherent_throwing offset
  | .breakStmt offset _ => by rw [Stmt.fragment]; exact Fragment.coherent_breaking offset
  | .continueStmt offset _ => by rw [Stmt.fragment]; exact Fragment.coherent_continuing offset
  | .whileStmt _ test body => by
    rw [Stmt.fragment]
    split
    · exact Fragment.coherent_step test.offset
    · exact Fragment.coherent_loop test.offset body.fragment
  | .ifStmt _ test consequent none folded => by
    have hc := Block.coherent consequent
    rw [Stmt.fragment]
    split
    · exact Fragment.coherent_choice _ _ (by simp [Fragment.coherent_empty]) (by simp)
    · exact Fragment.coherent_choice _ _ (by simp [hc]) (by simp)
  | .ifStmt _ test consequent (some alternate) folded => by
    have hc := Block.coherent consequent
    have ha := Block.coherent alternate
    rw [Stmt.fragment]
    split
    · exact Fragment.coherent_choice _ _ (by simp [hc]) (by simp)
    · exact Fragment.coherent_choice _ _ (by simp [ha]) (by simp)
    · exact Fragment.coherent_choice _ _ (by simp [hc, ha]) (by simp)
  | .tryStmt _ block handler none _ => by
    rw [Stmt.fragment]
    exact Fragment.coherent_guarded (Block.coherent block) (Block.coherent handler)
      Fragment.coherent_empty
  | .tryStmt _ block handler (some finalizer) _ => by
    rw [Stmt.fragment]
    exact Fragment.coherent_guarded (Block.coherent block) (Block.coherent handler)
      (Block.coherent finalizer)
  | .blockStmt block => by rw [Stmt.fragment]; exact Block.coherent block
  | .unsupported .. => by rw [Stmt.fragment]; exact Fragment.coherent_empty
/-- The fragments of blocks are coherent. -/
theorem Block.coherent : (b : Block) → b.fragment.Coherent
  | ⟨_, body⟩ => by rw [Block.fragment]; exact Stmt.coherent_sequence body Fragment.coherent_empty
theorem Stmt.coherent_sequence :
    (ss : List Stmt) → ∀ {f : Fragment}, f.Coherent → (Stmt.sequence f ss).Coherent
  | [], f, hf => by rw [Stmt.sequence]; exact hf
  | s :: rest, f, hf => by
    rw [Stmt.sequence]
    split
    next hr => exact Stmt.coherent_sequence rest (hf.andThen (Stmt.coherent s) hr s.offset)
    next => exact hf
end

/-! ### Entries of blocks -/

theorem Fragment.entries_andThen_ne_nil {f next : Fragment} (offset : Int)
    (hf : f.initial ≠ none → f.entries ≠ []) (h : (f.andThen offset next).initial ≠ none) :
    (f.andThen offset next).entries ≠ [] := by
  rcases hn : next.initial with - | entry
  · rw [andThen_of_none offset hn] at h ⊢
    exact hf h
  · rw [andThen_of_some offset hn]
    exact List.append_ne_nil_of_right_ne_nil _ (List.cons_ne_nil _ _)

theorem Stmt.entries_sequence_ne_nil {f : Fragment} (ss : List Stmt)
    (hf : f.initial ≠ none → f.entries ≠ []) (h : (Stmt.sequence f ss).initial ≠ none) :
    (Stmt.sequence f ss).entries ≠ [] := by
  induction ss generalizing f with
  | nil =>
    rw [Stmt.sequence] at h ⊢
    exact hf h
  | cons s rest ih =>
    rw [Stmt.sequence] at h ⊢
    split at h
    next hr =>
      rw [if_pos hr]
      exact ih (Fragment.entries_andThen_ne_nil s.offset hf) h
    next hr =>
      rw [if_neg hr]
      exact hf h

theorem Block.entries_ne_nil {b : Block} (h : b.fragment.initial ≠ none) :
    b.fragment.entries ≠ [] := by
  obtain ⟨offset, body⟩ := b
  rw [Block.fragment] at h ⊢
  exact Stmt.entries_sequence_ne_nil body (fun h => absurd rfl h) h

/-- The handler of a block in which something runs may be entered. -/
theorem Block.sources_ne_nil {b : Block} (h : b.fragment.initial ≠ none) :
    b.fragment.sources ≠ [] := by
  rcases ht : b.fragment.throwAt with - | l
  · -- no `throw` cuts the entries
    obtain ⟨e, rest, he⟩ := List.exists_cons_of_ne_nil (Block.entries_ne_nil h)
    refine List.ne_nil_of_mem (a := e.2) ?_
    rw [Fragment.sources, ht, he, mem_unique]
    simp
  · exact List.ne_nil_of_mem (Fragment.raises_subset_sources (b.coherent.throws l ht).1)

end Liveness
