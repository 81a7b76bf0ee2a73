/-
Liveness/Proofs/Reach.lean

What the builder comes to is reached: a path leads to it from the entry of its
block, operation by operation.  What can be continued has last labels, a block in
which something runs has labels to enter its handler from, and what is run on the
way out is entered from a normal end or from a `throw` of the handler.

For the last of these no `break` or `continue` may leave the guarded block or its
handler (`Stmt.Unjumped`), since such a jump has no edge to the way out.
-/
import Liveness.Proofs.Built
import Liveness.Proofs.LivePaths

namespace Liveness

/-! ### Reached labels -/

namespace Fragment

/-- A path leads from the entry of a fragment to a label. -/
def Reaches (f : Fragment) (l : Label) : Prop :=
  ∃ entry passed, f.initial = some entry ∧ FlowPath f.flows entry passed l

section Reaches

variable {f g next block handler finalizer : Fragment} {l a : Label}

theorem reaches_initial (h : f.initial = some l) : f.Reaches l :=
  ⟨l, [], h, .here l⟩

theorem Reaches.initial_ne_none (h : f.Reaches l) : f.initial ≠ none := by
  obtain ⟨entry, -, hentry, -⟩ := h
  rw [hentry]
  exact Option.some_ne_none entry

/-- What is reached in the part of a fragment with which it begins. -/
theorem Reaches.of_first (h : g.Reaches l) (hinitial : f.initial = g.initial)
    (hflows : g.flows ⊆ f.flows) : f.Reaches l := by
  obtain ⟨entry, passed, hentry, hpath⟩ := h
  exact ⟨entry, passed, hinitial.trans hentry, hpath.mono fun e he => hflows he⟩

/-- What is reached in a part of a fragment to which an edge leads from a label that is reached. -/
theorem Reaches.of_edge (h : g.Reaches l) (ha : f.Reaches a) (hflows : g.flows ⊆ f.flows)
    (hedge : ∀ entry, g.initial = some entry → (a, entry) ∈ f.flows) : f.Reaches l := by
  obtain ⟨entry, passed, hentry, hpath⟩ := h
  obtain ⟨first, before, hfirst, hbefore⟩ := ha
  have hafter : FlowPath f.flows a (a :: passed) l :=
    .step (hedge entry hentry) (hpath.mono fun e he => hflows he)
  exact ⟨first, before ++ a :: passed, hfirst, hbefore.trans hafter⟩

theorem Reaches.andThen_left (h : f.Reaches l) (offset : Int) :
    (f.andThen offset next).Reaches l := by
  have hne := h.initial_ne_none
  refine h.of_first ?_ ?_
  · rw [initial_andThen]
    exact Option.or_of_isSome (Option.isSome_iff_ne_none.mpr hne)
  · intro e he
    rw [andThen]
    split
    · exact he
    · exact List.mem_append_left _ (List.mem_append_left _ he)

/-- What follows a fragment that can be continued is entered from one of its last labels. -/
theorem Reaches.andThen_right (h : next.Reaches l) (hf : f.Coherent) (hr : f.reachesExit = true)
    (hfinals : ∀ a ∈ f.finals, f.Reaches a) (offset : Int) : (f.andThen offset next).Reaches l := by
  obtain ⟨entry, -, hentry, -⟩ := id h
  have hflows : next.flows ⊆ (f.andThen offset next).flows := by
    rw [andThen_of_some offset hentry]
    exact List.subset_append_right _ _
  by_cases hi : f.initial = none
  · refine h.of_first ?_ hflows
    rw [initial_andThen, hi, Option.none_or]
  · obtain ⟨a, ha⟩ := List.exists_mem_of_ne_nil _ ((hf.finals_iff hi).mpr hr)
    refine h.of_edge ((hfinals a ha).andThen_left offset) hflows ?_
    intro first hfirst
    rw [andThen_of_some offset hfirst]
    exact List.mem_append_left _ (List.mem_append_right _ (List.mem_map_of_mem ha))

theorem Reaches.choice {branches : List Fragment} (h : g.Reaches l) (hg : g ∈ branches)
    (test : Label) (withoutElse : Bool) : (choice test withoutElse branches).Reaches l := by
  refine h.of_edge (reaches_initial rfl) ?_ ?_
  · intro e he
    exact List.mem_append_right _ (List.mem_flatMap.mpr ⟨g, hg, he⟩)
  · intro entry hentry
    refine List.mem_append_left _ (List.mem_flatMap.mpr ⟨g, hg, ?_⟩)
    rw [hentry]
    exact List.mem_singleton_self _

theorem Reaches.loop (h : g.Reaches l) (test : Label) : (loop test g).Reaches l := by
  refine h.of_edge (reaches_initial (initial_loop test g)) ?_ ?_
  · intro e he
    rw [Fragment.loop]
    split
    next hnone => exact absurd hnone h.initial_ne_none
    next => exact List.mem_append_left _ (List.mem_cons_of_mem _ he)
  · intro entry hentry
    rw [loop_of_some test hentry]
    exact List.mem_append_left _ List.mem_cons_self

theorem Reaches.guarded_block (h : block.Reaches l) :
    (guarded block handler finalizer).Reaches l := by
  have hne := h.initial_ne_none
  refine h.of_first ?_ ?_
  · rw [initial_guarded]
    exact Option.or_of_isSome (Option.isSome_iff_ne_none.mpr hne)
  · exact List.Subset.trans (List.subset_append_left _ _) (flows_subset_guarded hne)

theorem Reaches.guarded_handler (h : handler.Reaches l) (ha : a ∈ block.sources)
    (hblock : block.Reaches a) : (guarded block handler finalizer).Reaches l := by
  have hne := hblock.initial_ne_none
  obtain ⟨first, -, hfirst, -⟩ := id h
  have hhandled : handled block handler = block.sources.map (·, first) ++ handler.flows := by
    rw [handled, hfirst]
  have hsub : handled block handler ⊆ (guarded block handler finalizer).flows :=
    List.Subset.trans (List.subset_append_right _ _) (flows_subset_guarded hne)
  rw [hhandled] at hsub
  refine h.of_edge hblock.guarded_block ?_ ?_
  · exact List.Subset.trans (List.subset_append_right _ _) hsub
  · intro entry hentry
    obtain rfl : first = entry := Option.some.inj (hfirst.symm.trans hentry)
    exact hsub (List.mem_append_left _ (List.mem_map_of_mem ha))

/-- What is run on the way out is entered from a normal end of the block or its handler, or from a
`throw` of the handler. -/
theorem Reaches.guarded_finalizer (h : finalizer.Reaches l) (hne : block.initial ≠ none)
    (ha : a ∈ guardExits block handler ++ handler.raises)
    (hreach : (guarded block handler finalizer).Reaches a) :
    (guarded block handler finalizer).Reaches l := by
  obtain ⟨entry, hb⟩ := Option.ne_none_iff_exists'.mp hne
  refine h.of_edge hreach ?_ ?_
  · obtain ⟨last, -, hlast, -⟩ := h
    rw [guarded_closed handler hb hlast]
    exact List.subset_append_right _ _
  · intro last hlast
    rw [guarded_closed handler hb hlast]
    exact List.mem_append_left _
      (List.mem_append_right _ (List.mem_map_of_mem (mem_unique.mpr ha)))

end Reaches

/-! ### Fragments that no `break` or `continue` leaves -/

/-- No `break` and no `continue` leaves a fragment. -/
def Jumpless (f : Fragment) : Prop :=
  f.breaks = [] ∧ f.continues = []

theorem jumpless_empty : empty.Jumpless := ⟨rfl, rfl⟩

theorem Jumpless.andThen {f next : Fragment} (hf : f.Jumpless) (hnext : next.Jumpless)
    (offset : Int) : (f.andThen offset next).Jumpless := by
  rw [Fragment.andThen]
  split
  · exact hf
  · exact ⟨List.append_eq_nil_iff.mpr ⟨hf.1, hnext.1⟩, List.append_eq_nil_iff.mpr ⟨hf.2, hnext.2⟩⟩

theorem jumpless_choice {branches : List Fragment} (h : ∀ b ∈ branches, b.Jumpless)
    (test : Label) (withoutElse : Bool) : (choice test withoutElse branches).Jumpless :=
  ⟨List.flatMap_eq_nil_iff.mpr fun b hb => (h b hb).1,
    List.flatMap_eq_nil_iff.mpr fun b hb => (h b hb).2⟩

/-- A loop takes the jumps of its body. -/
theorem jumpless_loop (test : Label) (body : Fragment) : (loop test body).Jumpless := by
  rw [loop]
  split <;> exact ⟨rfl, rfl⟩

theorem jumpless_guarded {block handler finalizer : Fragment} (hb : block.Jumpless)
    (hh : handler.Jumpless) (hf : finalizer.Jumpless) :
    (guarded block handler finalizer).Jumpless := by
  have hbreaks : block.breaks ++ handler.breaks ++ finalizer.breaks = [] := by
    rw [hb.1, hh.1, hf.1]
    rfl
  have hcontinues : block.continues ++ handler.continues ++ finalizer.continues = [] := by
    rw [hb.2, hh.2, hf.2]
    rfl
  rcases hi : block.initial with - | entry
  · rw [guarded_of_empty _ _ hi]
    exact hf
  rcases hlast : finalizer.initial with - | last
  · rw [guarded_open handler hi hlast]
    exact ⟨hbreaks, hcontinues⟩
  · rw [guarded_closed handler hi hlast]
    exact ⟨hbreaks, hcontinues⟩

end Fragment

/-- Whether a statement is a `break` or a `continue`. -/
def Stmt.isJump : Stmt → Bool
  | .breakStmt .. | .continueStmt .. => true
  | _ => false

/-- No `break` and no `continue` stands in a block. -/
def Block.Jumpless (b : Block) : Prop :=
  ∀ s ∈ b.statements, s.isJump = false

instance (b : Block) : Decidable b.Jumpless :=
  inferInstanceAs (Decidable (∀ s ∈ b.statements, s.isJump = false))

theorem Stmt.jumpless_of_blocks (s : Stmt) (ih : ∀ b ∈ s.blocks, b.Jumpless → b.fragment.Jumpless)
    (h : ∀ r ∈ s :: s.nested, r.isJump = false) : s.fragment.Jumpless := by
  have hblock : ∀ b ∈ s.blocks, b.fragment.Jumpless := fun b hb =>
    ih b hb fun r hr => h r (List.mem_cons_of_mem s (Stmt.mem_nested.mpr ⟨b, hb, hr⟩))
  have hown : s.isJump = false := h s List.mem_cons_self
  rcases s with _ | _ | ⟨offset, test, body⟩ | ⟨offset, test, consequent, alternate, folded⟩ |
    _ | _ | _ | ⟨offset, block, handler, _ | finalizer, param⟩ | b | ⟨offset, tag⟩
  case whileStmt =>
    rw [Stmt.fragment]
    split
    · exact ⟨rfl, rfl⟩
    · exact Fragment.jumpless_loop _ _
  case ifStmt =>
    rw [Stmt.fragment_ifStmt]
    exact Fragment.jumpless_choice
      (Stmt.forall_fragment_afterFolding _ _ _ _ _ Fragment.jumpless_empty hblock) _ _
  case tryStmt.none =>
    rw [Stmt.fragment]
    exact Fragment.jumpless_guarded (hblock block (by simp [blocks]))
      (hblock handler (by simp [blocks])) Fragment.jumpless_empty
  case tryStmt.some =>
    rw [Stmt.fragment]
    exact Fragment.jumpless_guarded (hblock block (by simp [blocks]))
      (hblock handler (by simp [blocks])) (hblock finalizer (by simp [blocks]))
  case blockStmt =>
    rw [Stmt.fragment]
    exact hblock b (by simp [blocks])
  case breakStmt => cases hown
  case continueStmt => cases hown
  all_goals
    rw [Stmt.fragment]
    exact ⟨rfl, rfl⟩

theorem Stmt.jumpless_sequence {ss : List Stmt} {f : Fragment} (hf : f.Jumpless)
    (hss : ∀ s ∈ ss, s.fragment.Jumpless) : (Stmt.sequence f ss).Jumpless := by
  induction ss generalizing f with
  | nil =>
    rw [Stmt.sequence]
    exact hf
  | cons s rest ih =>
    rw [Stmt.sequence]
    split
    · exact ih (hf.andThen (hss s List.mem_cons_self) s.offset) fun r hr =>
        hss r (List.mem_cons_of_mem s hr)
    · exact hf

/-- No jump leaves a block without one. -/
theorem Block.Jumpless.fragment {b : Block} (h : b.Jumpless) : b.fragment.Jumpless := by
  refine Block.of_body
    (P := fun s => (∀ r ∈ s :: s.nested, r.isJump = false) → s.fragment.Jumpless)
    (Q := fun b => b.Jumpless → b.fragment.Jumpless) Stmt.jumpless_of_blocks ?_ b h
  rintro ⟨offset, body⟩ ih h
  rw [Block.Jumpless, Block.statements] at h
  rw [Block.fragment]
  refine Stmt.jumpless_sequence Fragment.jumpless_empty fun s hs => ih s hs ?_
  intro r hr
  exact h r (Stmt.mem_flatten.mpr ⟨s, hs, List.mem_cons.mp hr⟩)

/-! ### What the builder comes to is reached -/

/-- If a statement has something to run on the way out, no `break` and no `continue` stands in the
code that it guards or in the handler. -/
def Stmt.Unjumped : Stmt → Prop
  | .tryStmt _ block handler (some _) _ => block.Jumpless ∧ handler.Jumpless
  | _ => True

instance : (s : Stmt) → Decidable s.Unjumped
  | .tryStmt _ block handler (some _) _ =>
    inferInstanceAs (Decidable (block.Jumpless ∧ handler.Jumpless))
  | .tryStmt _ _ _ none _ | .exprStmt .. | .declStmt .. | .whileStmt .. | .ifStmt ..
  | .throwStmt .. | .breakStmt .. | .continueStmt .. | .blockStmt .. | .unsupported .. =>
    isTrue trivial

theorem Stmt.initial_of_point? {s : Stmt} {l : Label} (h : s.point? = some l) :
    s.fragment.initial = some l := by
  rcases s with _ | _ | _ | ⟨_, _, _, _ | _, _⟩ | _ | _ | _ | ⟨_, _, _, _ | _, _⟩ | _ | _
  case whileStmt =>
    rw [Stmt.fragment]
    split
    · exact h
    · rw [Fragment.initial_loop]
      exact h
  case tryStmt.none => cases h
  case tryStmt.some => cases h
  case blockStmt => cases h
  case unsupported => cases h
  all_goals
    rw [Stmt.fragment]
    exact h

section Guarded

variable {block handler : Block} {finalizer : Fragment}

/-- In a guarded block, all that the builder comes to in the block and its handler is reached. -/
theorem Block.reaches_guarded (hb : ∀ l ∈ block.built, block.fragment.Reaches l)
    (hh : ∀ l ∈ handler.built, handler.fragment.Reaches l) (hne : block.fragment.initial ≠ none) :
    ∀ l ∈ block.built ++ handler.built,
      (Fragment.guarded block.fragment handler.fragment finalizer).Reaches l := by
  intro l hl
  rcases List.mem_append.mp hl with hl | hl
  · exact (hb l hl).guarded_block
  · obtain ⟨a, ha⟩ := List.exists_mem_of_ne_nil _ (Block.sources_ne_nil hne)
    exact (hh l hl).guarded_handler ha (hb a (block.within_built.sources ha))

/-- If no jump leaves a guarded block or its handler, what is run on the way out is reached. -/
theorem Block.reaches_finalizer {l : Label} (hb : ∀ l ∈ block.built, block.fragment.Reaches l)
    (hh : ∀ l ∈ handler.built, handler.fragment.Reaches l) (hbj : block.Jumpless)
    (hhj : handler.Jumpless) (h : finalizer.Reaches l) :
    (Fragment.guarded block.fragment handler.fragment finalizer).Reaches l := by
  by_cases hne : block.fragment.initial = none
  · rw [Fragment.guarded_of_empty _ _ hne]
    exact h
  -- all ways out are among the points that are reached
  have hbw : block.fragment.Within (block.built ++ handler.built) :=
    block.within_built.mono (List.subset_append_left _ _)
  have hhw : handler.fragment.Within (block.built ++ handler.built) :=
    handler.within_built.mono (List.subset_append_right _ _)
  have hways : Fragment.guardExits block.fragment handler.fragment ++ handler.fragment.raises ⊆
      block.built ++ handler.built :=
    List.append_subset.mpr ⟨hbw.guardExits hhw, hhw.raises⟩
  have hsome : Fragment.guardExits block.fragment handler.fragment ++
      handler.fragment.raises ≠ [] := by
    intro hnil
    obtain ⟨hexits, hraises⟩ := List.append_eq_nil_iff.mp hnil
    have hbf := hbj.fragment
    have hhf := hhj.fragment
    have habrupt := Fragment.abrupt_of_guardExits_eq_nil block.coherent handler.coherent hne hexits
    rw [hbf.1, hbf.2, hhf.1, hhf.2] at habrupt
    simp [hraises] at habrupt
  obtain ⟨a, ha⟩ := List.exists_mem_of_ne_nil _ hsome
  exact h.guarded_finalizer hne ha (Block.reaches_guarded hb hh hne a (hways ha))

end Guarded

/-- What is reached in a block that the builder enters is reached in the statement. -/
theorem Stmt.Enters.reaches {s : Stmt} {x : Step} {b : Block} (he : s.Enters x b)
    (hs : s.Unjumped) (hreach : ∀ c ∈ s.blocks, ∀ l ∈ c.built, c.fragment.Reaches l) {l : Label}
    (hl : l ∈ b.built) : s.fragment.Reaches l := by
  have hb : b.fragment.Reaches l := hreach b he.mem_blocks l hl
  cases he with
  | whileBody ht =>
    rw [Stmt.fragment, if_neg ht]
    exact hb.loop _
  | @consequent _ _ _ alternate _ hd =>
    cases alternate with
    | none =>
      rw [Stmt.fragment]
      refine hb.choice ?_ _ _
      split
      next hf => exact absurd hf hd
      next => exact List.mem_singleton_self _
    | some alternate =>
      rw [Stmt.fragment]
      refine hb.choice ?_ _ _
      split
      next => exact List.mem_singleton_self _
      next hf => exact absurd hf hd
      next => exact List.mem_cons_self
  | alternate hd =>
    rw [Stmt.fragment]
    refine hb.choice ?_ _ _
    split
    next ht => exact absurd ht hd
    next => exact List.mem_singleton_self _
    next => exact List.mem_cons_of_mem _ (List.mem_singleton_self _)
  | @guarded _ _ _ finalizer _ =>
    cases finalizer <;>
    · rw [Stmt.fragment]
      exact hb.guarded_block
  | @handler _ block _ finalizer _ hne =>
    have hblock := hreach block (by simp [blocks])
    have hhandler := hreach b (by simp [blocks])
    cases finalizer <;>
    · rw [Stmt.fragment]
      exact Block.reaches_guarded hblock hhandler hne l (List.mem_append_right _ hl)
  | @finalizer _ block handler _ _ =>
    have hblock := hreach block (by simp [blocks])
    have hhandler := hreach handler (by simp [blocks])
    rw [Stmt.fragment]
    exact Block.reaches_finalizer hblock hhandler hs.1 hs.2 hb

theorem Stmt.reaches_of_blocks (s : Stmt)
    (ih : ∀ b ∈ s.blocks, (∀ r ∈ b.statements, r.Unjumped) →
      ∀ l ∈ b.built, b.fragment.Reaches l)
    (h : ∀ r ∈ s :: s.nested, r.Unjumped) : ∀ l ∈ s.built, s.fragment.Reaches l := by
  have hreach : ∀ b ∈ s.blocks, ∀ l ∈ b.built, b.fragment.Reaches l := fun b hb =>
    ih b hb fun r hr => h r (List.mem_cons_of_mem s (Stmt.mem_nested.mpr ⟨b, hb, hr⟩))
  intro l hl
  cases Stmt.builds hl with
  | own hpoint => exact Fragment.reaches_initial (Stmt.initial_of_point? hpoint)
  | inside he hl => exact he.reaches (h s List.mem_cons_self) hreach hl
  | @braces b hs hl =>
    subst hs
    rw [Stmt.fragment]
    exact hreach b (List.mem_singleton_self b) l hl

/-- The statements of a block are reached one after another. -/
theorem Stmt.reaches_sequence {ss : List Stmt} {f : Fragment} {points : List Label}
    (hf : f.Coherent) (hw : f.Within points) (hpoints : ∀ l ∈ points, f.Reaches l)
    (hss : ∀ s ∈ ss, ∀ l ∈ s.built, s.fragment.Reaches l) :
    ∀ l ∈ points ++ Stmt.builtFrom f ss, (Stmt.sequence f ss).Reaches l := by
  induction ss generalizing f points with
  | nil =>
    rw [Stmt.sequence, Stmt.builtFrom, List.append_nil]
    exact hpoints
  | cons s rest ih =>
    rw [Stmt.sequence, Stmt.builtFrom]
    split
    next hr =>
      have hnext : ∀ l ∈ points ++ s.built, (f.andThen s.offset s.fragment).Reaches l := by
        intro l hl
        rcases List.mem_append.mp hl with hl | hl
        · exact (hpoints l hl).andThen_left s.offset
        · exact (hss s List.mem_cons_self l hl).andThen_right hf hr
            (fun a ha => hpoints a (hw.finals ha)) s.offset
      rw [← List.append_assoc]
      refine ih (hf.andThen s.coherent hr s.offset) ?_ hnext fun r hr =>
        hss r (List.mem_cons_of_mem s hr)
      exact (hw.mono (List.subset_append_left _ _)).andThen
        (s.within_built.mono (List.subset_append_right _ _)) s.offset
    next =>
      rw [List.append_nil]
      exact hpoints

/-- What the builder comes to in a block is reached from the entry of the block. -/
theorem Block.reaches_built {b : Block} (h : ∀ s ∈ b.statements, s.Unjumped) :
    ∀ l ∈ b.built, b.fragment.Reaches l := by
  refine Block.of_body
    (P := fun s => (∀ r ∈ s :: s.nested, r.Unjumped) → ∀ l ∈ s.built, s.fragment.Reaches l)
    (Q := fun b => (∀ s ∈ b.statements, s.Unjumped) → ∀ l ∈ b.built, b.fragment.Reaches l)
    Stmt.reaches_of_blocks ?_ b h
  rintro ⟨offset, body⟩ ih h
  rw [Block.statements] at h
  rw [Block.built, Block.fragment]
  have hnone : ∀ l ∈ ([] : List Label), Fragment.empty.Reaches l := fun l hl =>
    absurd hl List.not_mem_nil
  refine Stmt.reaches_sequence Fragment.coherent_empty Fragment.within_empty hnone
    fun s hs => ih s hs ?_
  intro r hr
  exact h r (Stmt.mem_flatten.mpr ⟨s, hs, List.mem_cons.mp hr⟩)

end Liveness
