/-
Liveness/Proofs/CatchClauses.lean

When a catch clause is reported.  The builder takes a clause to be dead if the fragment of its
`try` block is empty, and that is so exactly if no statement of the block, at any depth, has a
program point, apart from what is reported as dead itself.  Statements outside the analysed
language have no program point: a block of nothing but such statements counts as one in which
nothing can raise, and its catch clause is reported.

The reports about a program are sorted out by address.  Of a statement at an address either the
builder has come to it, and then the reports below the address are the reports about it
(`Report.Kept`), or it stands inside a part that a finding is about, and then nothing is
reported below that part (`Report.Hidden`).
-/
import Liveness.Estree.Program
import Liveness.Proofs.Reach
import Liveness.Proofs.Unreachable

namespace Liveness

/-! ### Reports around an address and below it -/

namespace Report

/-- The builder comes to the part at an address.  Of all reports, those below the address are the
reports about the part, and no finding is about the part or about one around it. -/
structure Kept (all own : List Report) (address : List Step) : Prop where
  subset : own ⊆ all
  below : ∀ r ∈ all, address <+: r.address → r ∈ own
  spared : ∀ r ∈ all, r.event.finding? ≠ none → ¬ r.address <+: address

/-- A finding is about the part at an address, and nothing is reported below it. -/
structure Closed (all : List Report) (address : List Step) : Prop where
  found : ∃ r ∈ all, r.event.finding? ≠ none ∧ r.address = address
  below : ∀ r ∈ all, address <+: r.address → r.address = address

/-- An address lies inside a part that a finding is about. -/
def Hidden (all : List Report) (address : List Step) : Prop :=
  ∃ outer, outer <+: address ∧ Closed all outer

variable {all mid own extra : List Report} {address inner : List Step}

theorem Kept.trans (h : Kept all mid address) (h' : Kept mid own inner) (hpre : address <+: inner) :
    Kept all own inner where
  subset := List.Subset.trans h'.subset h.subset
  below := fun r hr hinner => h'.below r (h.below r hr (hpre.trans hinner)) hinner
  spared := by
    intro r hr hfinding haround
    -- what is reported around `inner` is reported around `address` or below it
    rcases List.prefix_or_prefix_of_prefix haround hpre with h₁ | h₁
    · exact h.spared r hr hfinding h₁
    · exact h'.spared r (h.below r hr h₁) hfinding haround

theorem Kept.closed (h : Kept all mid address) (hc : Closed mid inner) (hpre : address <+: inner) :
    Closed all inner where
  found := by
    obtain ⟨r, hr, hfound⟩ := hc.found
    exact ⟨r, h.subset hr, hfound⟩
  below := fun r hr hinner => hc.below r (h.below r hr (hpre.trans hinner)) hinner

theorem Kept.hidden (h : Kept all mid address) (hmid : ∀ r ∈ mid, address <+: r.address)
    (hh : Hidden mid inner) : Hidden all inner := by
  obtain ⟨outer, hpre, hc⟩ := hh
  obtain ⟨r, hr, -, rfl⟩ := hc.found
  exact ⟨_, hpre, h.closed hc (hmid r hr)⟩

theorem Closed.hidden (h : Closed all address) (hpre : address <+: inner) : Hidden all inner :=
  ⟨address, hpre, h⟩

/-- Reports that have nothing to do with an address do not matter there. -/
theorem Kept.of_apart (h : Kept all own address)
    (hextra : ∀ r ∈ extra, ¬ address <+: r.address ∧ ¬ r.address <+: address) :
    Kept (extra ++ all) own address where
  subset := List.Subset.trans h.subset (List.subset_append_right _ _)
  below := by
    intro r hr hpre
    rcases List.mem_append.mp hr with hr | hr
    · exact absurd hpre (hextra r hr).1
    · exact h.below r hr hpre
  spared := by
    intro r hr hfinding
    rcases List.mem_append.mp hr with hr | hr
    · exact (hextra r hr).2
    · exact h.spared r hr hfinding

theorem Closed.of_apart (h : Closed all address)
    (hextra : ∀ r ∈ extra, ¬ address <+: r.address) : Closed (extra ++ all) address where
  found := by
    obtain ⟨r, hr, hfound⟩ := h.found
    exact ⟨r, List.mem_append_right _ hr, hfound⟩
  below := by
    intro r hr hpre
    rcases List.mem_append.mp hr with hr | hr
    · exact absurd hpre (hextra r hr)
    · exact h.below r hr hpre

end Report

open Report

/-! ### Statements of a block -/

section Sequence

variable {s : Stmt} {ss : List Stmt} {address more : List Step} {i j : Nat} {f : Fragment}
  {r : Report}

theorem item_apart (hij : i ≠ j) (h : address ++ [.item i] <+: more) :
    ¬ address ++ [.item j] <+: more ∧ ¬ more <+: address ++ [.item j] := by
  constructor
  · intro hj
    have hitem := eq_of_snoc_prefixes h hj
    simp only [Step.item.injEq] at hitem
    exact hij hitem
  · intro hj
    have hitem := eq_of_snoc_prefixes (h.trans hj) (List.prefix_refl _)
    simp only [Step.item.injEq] at hitem
    exact hij hitem

theorem Block.body_prefix_of_mem_reports {b : Block} (h : r ∈ b.reports address) :
    address ++ [.child "body"] <+: r.address := by
  obtain ⟨offset, body⟩ := b
  rw [Block.reports] at h
  obtain ⟨j, hj⟩ := Stmt.prefix_of_mem_sequenceReports h
  exact prefix_of_snoc hj

/-- What is found about a statement is about parts below it. -/
theorem Stmt.not_prefix_of_finding (h : r ∈ s.reports address) (hfinding : r.event.finding? ≠ none) :
    ¬ r.address <+: address := by
  intro hpre
  cases Stmt.origin h with
  | dropped _ hr =>
    rw [(Report.mem_drop hr).2] at hpre
    exact not_snoc_prefix_self hpre
  | entered _ hr => exact not_snoc_prefix_self ((Block.prefix_of_mem_reports hr).trans hpre)
  | braces _ hr => exact not_snoc_prefix_self ((Block.body_prefix_of_mem_reports hr).trans hpre)
  | skipped _ hskip =>
    rw [hskip] at hfinding
    exact hfinding rfl

/-- The builder comes to a statement if those before it reach their exit. -/
theorem Stmt.kept_sequence (hs : ss[j]? = some s)
    (hr : (Stmt.sequence f (ss.take j)).reachesExit = true) :
    Kept (Stmt.sequenceReports address i f ss) (s.reports (address ++ [.item (i + j)]))
      (address ++ [.item (i + j)]) := by
  induction ss generalizing f i j with
  | nil => cases hs
  | cons t rest ih =>
    cases j with
    | zero =>
      cases hs
      rw [List.take_zero, Stmt.sequence] at hr
      rw [Stmt.sequenceReports, if_pos hr, Nat.add_zero]
      -- reports about later statements have other addresses
      have hlater : ∀ g, ∀ r ∈ Stmt.sequenceReports address (i + 1) g rest,
          ¬ address ++ [.item i] <+: r.address ∧ ¬ r.address <+: address ++ [.item i] := by
        intro g r hr
        obtain ⟨k, hk⟩ := Stmt.prefix_of_mem_sequenceReports hr
        exact item_apart (by omega) hk
      refine ⟨List.subset_append_left _ _, fun r hmem hpre => ?_, fun r hmem hfinding => ?_⟩
      · rcases List.mem_append.mp hmem with hmem | hmem
        · exact hmem
        · exact absurd hpre (hlater _ r hmem).1
      · rcases List.mem_append.mp hmem with hmem | hmem
        · exact Stmt.not_prefix_of_finding hmem hfinding
        · exact (hlater _ r hmem).2
    | succ j =>
      rw [List.take_succ_cons, Stmt.sequence] at hr
      split at hr
      next hf =>
        rw [Stmt.sequenceReports, if_pos hf]
        have hkept := ih (i := i + 1) hs hr
        rw [Nat.add_right_comm] at hkept
        refine hkept.of_apart fun r hmem => ?_
        exact item_apart (by omega) (Stmt.prefix_of_mem_reports hmem)
      next hf => exact absurd hr hf

/-- A statement is reported as unreachable if those before it do not reach their exit. -/
theorem Stmt.closed_sequence (hs : ss[j]? = some s)
    (hr : (Stmt.sequence f (ss.take j)).reachesExit ≠ true) :
    Closed (Stmt.sequenceReports address i f ss) (address ++ [.item (i + j)]) := by
  induction ss generalizing f i j with
  | nil => cases hs
  | cons t rest ih =>
    cases j with
    | zero =>
      rw [List.take_zero, Stmt.sequence] at hr
      rw [Stmt.sequenceReports, if_neg hr, Nat.add_zero]
      refine ⟨⟨_, List.mem_cons_self, Option.some_ne_none _, rfl⟩, fun r hmem hpre => ?_⟩
      rcases List.mem_cons.mp hmem with rfl | hmem
      · rfl
      · obtain ⟨k, hk⟩ := Stmt.prefix_of_mem_sequenceReports hmem
        exact absurd hpre (item_apart (by omega) hk).1
    | succ j =>
      rw [List.take_succ_cons, Stmt.sequence] at hr
      rw [Stmt.sequenceReports]
      split at hr
      next hf =>
        have hclosed := ih (i := i + 1) hs hr
        rw [Nat.add_right_comm] at hclosed
        rw [if_pos hf]
        refine hclosed.of_apart fun r hmem => ?_
        exact (item_apart (by omega) (Stmt.prefix_of_mem_reports hmem)).1
      next hf =>
        -- the sequence has come to its end before, so the rest is reported item by item
        have hstuck : (Stmt.sequence f (rest.take j)).reachesExit ≠ true := by
          cases rest.take j with
          | nil => rwa [Stmt.sequence]
          | cons u us => rwa [Stmt.sequence, if_neg hf]
        have hclosed := ih (i := i + 1) hs hstuck
        rw [Nat.add_right_comm] at hclosed
        rw [if_neg hf, ← List.singleton_append]
        refine hclosed.of_apart fun r hmem => ?_
        rw [List.mem_singleton.mp hmem]
        exact (item_apart (by omega) (List.prefix_refl _)).1

end Sequence

/-! ### Blocks of a statement -/

section Blocks

variable {s : Stmt} {b : Block} {x : Step} {region : Region}

theorem Stmt.Enters.reports_subset (h : s.Enters x b) (address : List Step) :
    b.reports (address ++ [x]) ⊆ s.reports address := by
  intro r hr
  cases h with
  | whileBody ht =>
    rw [Stmt.reports, if_neg ht]
    exact hr
  | @consequent _ test _ alternate folded hd =>
    cases alternate with
    | none =>
      rw [Stmt.reports]
      split
      next hfalse => exact absurd hfalse hd
      next => exact hr
    | some alternate =>
      rw [Stmt.reports]
      split
      next => exact List.mem_append_right _ hr
      next hfalse => exact absurd hfalse hd
      next => exact List.mem_append_left _ hr
  | alternate hd =>
    rw [Stmt.reports]
    split
    next htrue => exact absurd htrue hd
    next => exact List.mem_append_right _ hr
    next => exact List.mem_append_right _ hr
  | @guarded _ _ _ finalizer _ =>
    cases finalizer with
    | none =>
      rw [Stmt.reports]
      exact List.mem_append_left _ hr
    | some finalizer =>
      rw [Stmt.reports]
      exact List.mem_append_left _ (List.mem_append_left _ hr)
  | @handler _ _ _ finalizer _ hb =>
    cases finalizer with
    | none =>
      rw [Stmt.reports, if_neg fun hi => hb (Fragment.isEmpty_iff.mp hi)]
      exact List.mem_append_right _ hr
    | some finalizer =>
      rw [Stmt.reports, if_neg fun hi => hb (Fragment.isEmpty_iff.mp hi)]
      exact List.mem_append_left _ (List.mem_append_right _ hr)
  | finalizer =>
    rw [Stmt.reports]
    exact List.mem_append_right _ hr

theorem Stmt.Drops.reports_subset (h : s.Drops region b) (address : List Step) :
    Report.drop address region b ⊆ s.reports address := by
  intro r hr
  cases h with
  | whileBody ht =>
    rw [Stmt.reports, if_pos ht]
    exact hr
  | @consequent _ _ _ alternate _ hd =>
    cases alternate with
    | none =>
      rw [Stmt.reports, hd]
      exact hr
    | some alternate =>
      rw [Stmt.reports, hd]
      exact List.mem_append_left _ hr
  | alternate hd =>
    rw [Stmt.reports, hd]
    exact List.mem_append_left _ hr
  | @handler _ _ _ finalizer _ hb =>
    cases finalizer with
    | none =>
      rw [Stmt.reports, if_pos (Fragment.isEmpty_iff.mpr hb)]
      exact List.mem_append_right _ hr
    | some finalizer =>
      rw [Stmt.reports, if_pos (Fragment.isEmpty_iff.mpr hb)]
      exact List.mem_append_left _ (List.mem_append_right _ hr)

theorem Report.mem_drop_self (address : List Step) (region : Region) (hb : b.body ≠ []) :
    ⟨address ++ [region.step], .dead region b.offset⟩ ∈ Report.drop address region b := by
  rw [Report.drop, Event.drop, if_neg (by simpa [Block.isEmpty] using hb)]
  exact List.mem_singleton_self _

/-- The builder comes to a block that it enters. -/
theorem Stmt.Enters.kept (he : s.Enters x b) (address : List Step) :
    Kept (s.reports address) (b.reports (address ++ [x])) (address ++ [x]) where
  subset := he.reports_subset address
  below := by
    intro r hr hpre
    cases Stmt.origin hr with
    | dropped hd hr =>
      rw [(Report.mem_drop hr).2] at hpre
      exact absurd (eq_of_snoc_prefixes hpre (List.prefix_refl _)) (he.ne_step hd)
    | entered he' hr =>
      obtain rfl := eq_of_snoc_prefixes hpre (Block.prefix_of_mem_reports hr)
      obtain rfl := he.unique he'
      exact hr
    | braces hs _ =>
      rw [hs] at he
      cases he
    | skipped _ hskip =>
      rw [hskip] at hpre
      exact absurd hpre not_snoc_prefix_self
  spared := by
    intro r hr hfinding haround
    cases Stmt.origin hr with
    | dropped hd hr =>
      rw [(Report.mem_drop hr).2] at haround
      exact he.ne_step hd (eq_of_snoc_prefixes (List.prefix_refl _) haround)
    | entered he' hr =>
      -- reports about an entered block are about its statements
      have hbody := (Block.body_prefix_of_mem_reports hr).trans haround
      obtain rfl := eq_of_snoc_prefixes (prefix_of_snoc hbody) (List.prefix_refl _)
      exact not_snoc_prefix_self hbody
    | braces hs _ =>
      rw [hs] at he
      cases he
    | skipped _ hskip =>
      rw [hskip] at hfinding
      exact hfinding rfl

/-- A block that is dropped with something in it is reported. -/
theorem Stmt.Drops.closed (hd : s.Drops region b) (hb : b.body ≠ []) (address : List Step) :
    Closed (s.reports address) (address ++ [region.step]) where
  found := ⟨_, hd.reports_subset address (Report.mem_drop_self address region hb),
    Option.some_ne_none _, rfl⟩
  below := by
    intro r hr hpre
    cases Stmt.origin hr with
    | dropped _ hr =>
      rw [(Report.mem_drop hr).2] at hpre ⊢
      rw [eq_of_snoc_prefixes (List.prefix_refl _) hpre]
    | entered he hr =>
      have hstep := eq_of_snoc_prefixes (Block.prefix_of_mem_reports hr) hpre
      exact absurd hstep (he.ne_step hd)
    | braces hs _ =>
      rw [hs] at hd
      cases hd
    | skipped _ hskip =>
      rw [hskip] at hpre
      exact absurd hpre not_snoc_prefix_self

theorem Part.mem_children {part q : Part} {name : String} (h : part.step? (.child name) = some q) :
    (name, some q) ∈ part.children := by
  rw [Part.step?, Option.join_eq_some_iff] at h
  obtain ⟨before, after, heq, -⟩ := List.lookup_eq_some_iff.mp h
  rw [heq]
  simp

/-- A block of a statement is entered or dropped. -/
theorem Stmt.enters_or_drops (h : (Part.stmt s).step? x = some (.block b)) :
    s.Enters x b ∨ ∃ region : Region, x = region.step ∧ s.Drops region b := by
  rcases x with name | i
  · have hmem := Part.mem_children h
    rcases s with _ | _ | ⟨offset, test, body⟩ | ⟨offset, test, consequent, alternate, folded⟩ |
      _ | _ | _ | ⟨offset, block, handler, finalizer, param⟩ | c | _
    case whileStmt =>
      obtain ⟨rfl, rfl⟩ : name = "body" ∧ b = body := by
        simpa [Part.children, Part.stmtChildren] using hmem
      by_cases ht : test.truth? = some false
      · exact Or.inr ⟨.whileBody, rfl, .whileBody ht⟩
      · exact Or.inl (.whileBody ht)
    case ifStmt =>
      have hcases : (name = "consequent" ∧ b = consequent) ∨
          (name = "alternate" ∧ alternate = some b) := by
        simpa [Part.children, Part.stmtChildren, eq_comm] using hmem
      rcases hcases with ⟨rfl, rfl⟩ | ⟨rfl, rfl⟩
      · by_cases hd : Stmt.decided? folded test = some false
        · exact Or.inr ⟨.ifConsequent, rfl, .consequent hd⟩
        · exact Or.inl (.consequent hd)
      · by_cases hd : Stmt.decided? folded test = some true
        · exact Or.inr ⟨.ifAlternate, rfl, .alternate hd⟩
        · exact Or.inl (.alternate hd)
    case tryStmt =>
      have hcases : (name = "block" ∧ b = block) ∨ (name = "handler" ∧ b = handler) ∨
          (name = "finalizer" ∧ finalizer = some b) := by
        simpa [Part.children, Part.stmtChildren, eq_comm] using hmem
      rcases hcases with ⟨rfl, rfl⟩ | ⟨rfl, rfl⟩ | ⟨rfl, rfl⟩
      · exact Or.inl .guarded
      · by_cases hb : block.fragment.initial = none
        · exact Or.inr ⟨.catchClause, rfl, .handler hb⟩
        · exact Or.inl (.handler hb)
      · exact Or.inl .finalizer
    all_goals simp [Part.children, Part.stmtChildren, Part.ofBody, eq_comm] at hmem
  · cases h

end Blocks

/-! ### Statements at addresses inside a block -/

/-- A statement stands in a block, at any depth, at an address relative to the block. -/
inductive Block.Holds : Block → List Step → Stmt → Prop
  /-- It is a statement of the block itself. -/
  | item {b i s} : b.body[i]? = some s → Holds b [.child "body", .item i] s
  /-- It stands in a block of one of the statements. -/
  | inside {b i s x c rest t} : b.body[i]? = some s → (Part.stmt s).step? x = some (.block c) →
      Holds c rest t → Holds b (.child "body" :: .item i :: x :: rest) t
  /-- Bare braces are the block between them. -/
  | braces {b i c rest t} : b.body[i]? = some (.blockStmt c) → Holds c rest t →
      Holds b (.child "body" :: .item i :: rest) t

section Holds

variable {b : Block} {s t : Stmt} {rest : List Step} {i : Nat}

theorem Block.Holds.body_ne_nil (h : b.Holds rest t) : b.body ≠ [] := by
  have hsome : ∀ {i : Nat} {s : Stmt}, b.body[i]? = some s → b.body ≠ [] := by
    intro i s hs hnil
    rw [hnil] at hs
    cases hs
  cases h with
  | item hs => exact hsome hs
  | inside hs => exact hsome hs
  | braces hs => exact hsome hs

theorem Block.kept_item (hs : b.body[i]? = some s)
    (hr : (Stmt.sequence .empty (b.body.take i)).reachesExit = true) (address : List Step) :
    Kept (b.reports address) (s.reports (address ++ [.child "body"] ++ [.item i]))
      (address ++ [.child "body"] ++ [.item i]) := by
  obtain ⟨offset, body⟩ := b
  rw [Block.reports, ← Nat.zero_add i]
  exact Stmt.kept_sequence hs hr

/-- The builder comes to a statement of a block, or the statement is reported. -/
theorem Block.kept_or_closed (hs : b.body[i]? = some s) (address : List Step) :
    Kept (b.reports address) (s.reports (address ++ [.child "body"] ++ [.item i]))
        (address ++ [.child "body"] ++ [.item i]) ∨
      Closed (b.reports address) (address ++ [.child "body"] ++ [.item i]) := by
  by_cases hr : (Stmt.sequence .empty (b.body.take i)).reachesExit = true
  · exact Or.inl (Block.kept_item hs hr address)
  · refine Or.inr ?_
    obtain ⟨offset, body⟩ := b
    rw [Block.reports, ← Nat.zero_add i]
    exact Stmt.closed_sequence hs hr

/-- The builder comes to a statement in a block, or the statement is inside what is reported. -/
theorem Block.Holds.kept_or_hidden (h : b.Holds rest t) (address : List Step) :
    Kept (b.reports address) (t.reports (address ++ rest)) (address ++ rest) ∨
      Hidden (b.reports address) (address ++ rest) := by
  induction h generalizing address with
  | @item b i s hs =>
    rcases Block.kept_or_closed hs address with hkept | hclosed
    · rw [List.append_assoc] at hkept
      exact Or.inl hkept
    · rw [List.append_assoc] at hclosed
      exact Or.inr (hclosed.hidden (List.prefix_refl _))
  | @inside b i s x c rest t hs hx hc ih =>
    rw [List.append_cons, List.append_cons, List.append_cons]
    rcases Block.kept_or_closed hs address with hkept | hclosed
    · rcases Stmt.enters_or_drops hx with he | ⟨region, rfl, hd⟩
      · have hblock := hkept.trans (he.kept _) (List.prefix_append _ _)
        rcases ih (address ++ [.child "body"] ++ [.item i] ++ [x]) with h | h
        · exact Or.inl (hblock.trans h (List.prefix_append _ _))
        · exact Or.inr (hblock.hidden (fun r hr => Block.prefix_of_mem_reports hr) h)
      · have hclosed := hkept.closed (hd.closed hc.body_ne_nil _) (List.prefix_append _ _)
        exact Or.inr (hclosed.hidden (List.prefix_append _ _))
    · refine Or.inr (hclosed.hidden ?_)
      rw [List.append_assoc _ [x] rest]
      exact List.prefix_append _ _
  | @braces b i c rest t hs hc ih =>
    rw [List.append_cons, List.append_cons]
    rcases Block.kept_or_closed hs address with hkept | hclosed
    · rw [Stmt.reports] at hkept
      rcases ih (address ++ [.child "body"] ++ [.item i]) with h | h
      · exact Or.inl (hkept.trans h (List.prefix_append _ _))
      · exact Or.inr (hkept.hidden (fun r hr => Block.prefix_of_mem_reports hr) h)
    · exact Or.inr (hclosed.hidden (List.prefix_append _ _))

end Holds

/-! ### Blocks in which nothing runs -/

section Nothing

variable {b : Block} {s t : Stmt} {ss : List Stmt} {f : Fragment} {rest : List Step} {x : Step}

theorem Stmt.initial_sequence_cons (hf : f.reachesExit = true)
    (h : (Stmt.sequence f (s :: ss)).initial = none) : s.fragment.initial = none := by
  rw [Stmt.sequence, if_pos hf] at h
  rcases hi : s.fragment.initial with - | entry
  · rfl
  · refine absurd h (Stmt.initial_sequence_ne_none ss ?_)
    rw [Fragment.initial_andThen, hi]
    cases f.initial <;> exact Option.some_ne_none _

theorem Stmt.sequence_take_of_initial (hf : f.reachesExit = true)
    (h : (Stmt.sequence f ss).initial = none) (i : Nat) : Stmt.sequence f (ss.take i) = f := by
  induction ss generalizing i with
  | nil => rw [List.take_nil, Stmt.sequence]
  | cons t rest ih =>
    have ht := Stmt.initial_sequence_cons hf h
    rw [Stmt.sequence, if_pos hf, Fragment.andThen_of_none t.offset ht] at h
    cases i with
    | zero => rw [List.take_zero, Stmt.sequence]
    | succ i =>
      rw [List.take_succ_cons, Stmt.sequence, if_pos hf, Fragment.andThen_of_none t.offset ht]
      exact ih h i

theorem Stmt.initial_eq_none_of_sequence (hf : f.reachesExit = true)
    (h : (Stmt.sequence f ss).initial = none) : ∀ s ∈ ss, s.fragment.initial = none := by
  induction ss with
  | nil => exact fun s hs => absurd hs List.not_mem_nil
  | cons t rest ih =>
    have ht := Stmt.initial_sequence_cons hf h
    rw [Stmt.sequence, if_pos hf, Fragment.andThen_of_none t.offset ht] at h
    intro s hs
    rcases List.mem_cons.mp hs with rfl | hs
    · exact ht
    · exact ih h s hs

theorem Stmt.point?_eq_none (h : s.fragment.initial = none) : s.point? = none := by
  rcases hp : s.point? with - | l
  · rfl
  · rw [Stmt.initial_of_point? hp] at h
    cases h

/-- Where nothing runs in a statement, nothing runs in the blocks that are entered. -/
theorem Stmt.Enters.initial_eq_none (he : s.Enters x b) (h : s.fragment.initial = none) :
    b.fragment.initial = none := by
  have hpoint := Stmt.point?_eq_none h
  cases he with
  | @guarded _ _ _ finalizer _ =>
    cases finalizer <;> rw [Stmt.fragment, Fragment.initial_guarded] at h <;>
      exact (Option.or_eq_none_iff.mp h).1
  | @handler _ _ _ finalizer _ hb =>
    cases finalizer <;> rw [Stmt.fragment, Fragment.initial_guarded] at h <;>
      exact absurd (Option.or_eq_none_iff.mp h).1 hb
  | finalizer =>
    rw [Stmt.fragment, Fragment.initial_guarded] at h
    exact (Option.or_eq_none_iff.mp h).2
  | _ => cases hpoint

theorem Block.initial_eq_none_of_item {i : Nat} (hb : b.fragment.initial = none)
    (hs : b.body[i]? = some s) : s.fragment.initial = none := by
  obtain ⟨offset, body⟩ := b
  rw [Block.fragment] at hb
  exact Stmt.initial_eq_none_of_sequence rfl hb s (List.mem_of_getElem? hs)

/-- In a block in which nothing runs the builder comes to every statement. -/
theorem Block.reports_item_subset {i : Nat} (hb : b.fragment.initial = none)
    (hs : b.body[i]? = some s) (address : List Step) :
    s.reports (address ++ [.child "body"] ++ [.item i]) ⊆ b.reports address := by
  refine (Block.kept_item hs ?_ address).subset
  obtain ⟨offset, body⟩ := b
  rw [Block.fragment] at hb
  rw [Stmt.sequence_take_of_initial rfl hb]
  rfl

/-- In a block in which nothing runs, nothing runs in a statement at any depth, unless it is inside
a region that is reported as dead. -/
theorem Block.Holds.initial_eq_none_or_dead (h : b.Holds rest t) (hb : b.fragment.initial = none)
    (address : List Step) :
    t.fragment.initial = none ∨
      ∃ r ∈ b.reports address, (∃ region o, r.event = .dead region o) ∧
        r.address <+: address ++ rest := by
  induction h generalizing address with
  | item hs => exact Or.inl (Block.initial_eq_none_of_item hb hs)
  | @inside b i s x c rest t hs hx hc ih =>
    have hitem := Block.reports_item_subset hb hs address
    rw [List.append_cons, List.append_cons, List.append_cons]
    rcases Stmt.enters_or_drops hx with he | ⟨region, rfl, hd⟩
    · -- nothing runs in the statement, and so nothing runs in the block
      have hempty := he.initial_eq_none (Block.initial_eq_none_of_item hb hs)
      rcases ih hempty _ with h | ⟨r, hr, hdead⟩
      · exact Or.inl h
      · exact Or.inr ⟨r, hitem (he.reports_subset _ hr), hdead⟩
    · -- the block holds the statement, so it is not empty and is reported
      have hmem := hitem (hd.reports_subset _ (Report.mem_drop_self _ region hc.body_ne_nil))
      exact Or.inr ⟨_, hmem, ⟨region, c.offset, rfl⟩, List.prefix_append _ _⟩
  | @braces b i c rest t hs _ ih =>
    have hitem := Block.reports_item_subset hb hs address
    have hempty := Block.initial_eq_none_of_item hb hs
    rw [Stmt.reports] at hitem
    rw [Stmt.fragment] at hempty
    rw [List.append_cons, List.append_cons]
    rcases ih hempty _ with h | ⟨r, hr, hdead⟩
    · exact Or.inl h
    · exact Or.inr ⟨r, hitem hr, hdead⟩

/-- Where something runs in a sequence, there is a first statement in which something runs. -/
theorem Stmt.exists_initial_of_sequence (hf : f.reachesExit = true) (hi : f.initial = none)
    (h : (Stmt.sequence f ss).initial ≠ none) :
    ∃ i s, ss[i]? = some s ∧ s.fragment.initial ≠ none ∧
      (Stmt.sequence f (ss.take i)).reachesExit = true := by
  induction ss with
  | nil =>
    rw [Stmt.sequence] at h
    exact absurd hi h
  | cons s rest ih =>
    by_cases hs : s.fragment.initial = none
    · rw [Stmt.sequence, if_pos hf, Fragment.andThen_of_none s.offset hs] at h
      obtain ⟨i, t, ht, hne, hreach⟩ := ih h
      refine ⟨i + 1, t, ht, hne, ?_⟩
      rw [List.take_succ_cons, Stmt.sequence, if_pos hf, Fragment.andThen_of_none s.offset hs]
      exact hreach
    · refine ⟨0, s, rfl, hs, ?_⟩
      rw [List.take_zero, Stmt.sequence]
      exact hf

/-- A statement in which something runs has a point of its own, or something runs in one of its
blocks that is entered. -/
theorem Stmt.point_or_enters (h : s.fragment.initial ≠ none) :
    (∃ l, s.point? = some l) ∨ (∃ b, s = .blockStmt b ∧ b.fragment.initial ≠ none) ∨
      ∃ x b, s.Enters x b ∧ b ∈ s.blocks ∧ b.fragment.initial ≠ none := by
  rcases s with _ | _ | _ | _ | _ | _ | _ | ⟨_, block, handler, finalizer, _⟩ | b | _
  case tryStmt =>
    refine Or.inr (Or.inr ?_)
    by_cases hb : block.fragment.initial = none
    · cases finalizer with
      | none =>
        rw [Stmt.fragment, Fragment.initial_guarded, hb] at h
        exact absurd rfl h
      | some finalizer =>
        rw [Stmt.fragment, Fragment.initial_guarded, hb] at h
        exact ⟨_, finalizer, .finalizer, by simp [Stmt.blocks], h⟩
    · exact ⟨_, block, .guarded, by simp [Stmt.blocks], hb⟩
  case blockStmt =>
    rw [Stmt.fragment] at h
    exact Or.inr (Or.inl ⟨b, rfl, h⟩)
  case unsupported =>
    rw [Stmt.fragment] at h
    exact absurd rfl h
  all_goals exact Or.inl ⟨_, rfl⟩

/-- In a block in which something runs there is a statement with a point that the builder comes
to. -/
theorem Block.exists_point (b : Block) (h : b.fragment.initial ≠ none) :
    ∃ rest s l, b.Holds rest s ∧ s.point? = some l ∧ ∀ address,
      Kept (b.reports address) (s.reports (address ++ rest)) (address ++ rest) := by
  revert h
  refine Block.of_body (P := fun s => ∀ b ∈ s.blocks, b.fragment.initial ≠ none →
      ∃ rest t l, b.Holds rest t ∧ t.point? = some l ∧ ∀ address,
        Kept (b.reports address) (t.reports (address ++ rest)) (address ++ rest))
    (fun s ih => ih) ?_ b
  intro b ih h
  obtain ⟨i, s, hs, hne, hreach⟩ : ∃ i s, b.body[i]? = some s ∧ s.fragment.initial ≠ none ∧
      (Stmt.sequence .empty (b.body.take i)).reachesExit = true := by
    obtain ⟨offset, body⟩ := b
    rw [Block.fragment] at h
    exact Stmt.exists_initial_of_sequence rfl rfl h
  have hkept := Block.kept_item hs hreach
  have hmem : s ∈ b.body := List.mem_of_getElem? hs
  rcases Stmt.point_or_enters hne with ⟨l, hl⟩ | ⟨c, rfl, hc⟩ | ⟨x, c, he, hcs, hc⟩
  · refine ⟨_, s, l, .item hs, hl, fun address => ?_⟩
    have hitem := hkept address
    rw [List.append_assoc] at hitem
    exact hitem
  · obtain ⟨rest, t, l, hholds, hl, ht⟩ := ih _ hmem c (List.mem_singleton_self c) hc
    refine ⟨_, t, l, .braces hs hholds, hl, fun address => ?_⟩
    have hitem := (hkept address).trans (ht _) (List.prefix_append _ _)
    rw [List.append_assoc, List.append_assoc] at hitem
    exact hitem
  · obtain ⟨rest, t, l, hholds, hl, ht⟩ := ih _ hmem c hcs hc
    refine ⟨_, t, l, .inside hs he.step? hholds, hl, fun address => ?_⟩
    have hblock := (hkept address).trans (he.kept _) (List.prefix_append _ _)
    have hitem := hblock.trans (ht _) (List.prefix_append _ _)
    rw [List.append_assoc, List.append_assoc, List.append_assoc] at hitem
    exact hitem

end Nothing

/-! ### Addresses of statements -/

/-- A part without statements in it. -/
inductive Part.Inert : Part → Prop
  | expr (e : Expr) : Inert (.expr e)
  | declarator (d : Declarator) : Inert (.declarator d)
  | list {items : List (Option Part)} : (∀ part, some part ∈ items → Inert part) →
      Inert (.list items)

section Inert

variable {part q : Part} {x : Step} {rest : List Step}

theorem Part.at?_cons (part : Part) (x : Step) (rest : List Step) :
    part.at? (x :: rest) = (part.step? x).bind (·.at? rest) := by
  simp only [Part.at?, List.foldlM_cons]
  rfl

theorem Part.inert_operands (operands : List Expr) :
    (Part.list (operands.map fun e => some (.expr e))).Inert := by
  refine .list fun part hpart => ?_
  obtain ⟨e, -, he⟩ := List.mem_map.mp hpart
  rw [← Option.some.inj he]
  exact .expr e

theorem Part.inert_arguments (arguments : List (Option Expr)) :
    (Part.list (arguments.map (·.map .expr))).Inert := by
  refine .list fun part hpart => ?_
  obtain ⟨argument, -, he⟩ := List.mem_map.mp hpart
  obtain ⟨e, -, rfl⟩ := Option.map_eq_some_iff.mp he
  exact .expr e

theorem Part.Inert.step? (h : part.Inert) (hx : part.step? x = some q) : q.Inert := by
  rcases x with name | i
  · have hmem := Part.mem_children hx
    cases h with
    | expr e =>
      cases e <;> simp only [Part.children, Part.exprChildren, List.mem_cons, List.not_mem_nil,
        or_false, Prod.mk.injEq, Option.some.injEq] at hmem
      case member => rcases hmem with ⟨-, rfl⟩ | ⟨-, rfl⟩ <;> exact .expr _
      case call =>
        rcases hmem with ⟨-, rfl⟩ | ⟨-, rfl⟩
        · exact .expr _
        · exact Part.inert_arguments _
      case assignment => rcases hmem with ⟨-, rfl⟩ | ⟨-, rfl⟩ <;> exact .expr _
      case update =>
        obtain ⟨-, rfl⟩ := hmem
        exact .expr _
      case operation =>
        obtain ⟨-, rfl⟩ := hmem
        exact Part.inert_operands _
    | declarator d =>
      simp only [Part.children, List.mem_singleton, Prod.mk.injEq] at hmem
      obtain ⟨e, -, rfl⟩ := Option.map_eq_some_iff.mp hmem.2.symm
      exact .expr e
    | list => cases hmem
  · cases h with
    | list hitems =>
      rw [Part.step?, Option.join_eq_some_iff] at hx
      exact hitems q (List.mem_of_getElem? hx)
    | _ => cases hx

theorem Part.Inert.at? (h : part.Inert) (hat : part.at? rest = some q) : q.Inert := by
  induction rest generalizing part with
  | nil =>
    obtain rfl : part = q := Option.some.inj hat
    exact h
  | cons x rest ih =>
    rw [Part.at?_cons] at hat
    obtain ⟨next, hx, hat⟩ := Option.bind_eq_some_iff.mp hat
    exact ih (h.step? hx) hat

/-- One step from a statement leads to a block or to a part without statements in it. -/
theorem Part.block_or_inert {s : Stmt} (hs : Part.ofStmt s = .stmt s)
    (hx : (Part.stmt s).step? x = some q) : (∃ b, q = .block b) ∨ q.Inert := by
  rcases x with name | i
  · have hmem := Part.mem_children hx
    cases s <;> simp only [Part.children, Part.stmtChildren, List.mem_cons, List.not_mem_nil,
      or_false, Prod.mk.injEq, Option.some.injEq] at hmem
    case exprStmt =>
      obtain ⟨-, rfl⟩ := hmem
      exact Or.inr (.expr _)
    case declStmt =>
      obtain ⟨-, rfl⟩ := hmem
      refine Or.inr (.list fun part hpart => ?_)
      obtain ⟨d, -, hd⟩ := List.mem_map.mp hpart
      rw [← Option.some.inj hd]
      exact .declarator d
    case whileStmt =>
      rcases hmem with ⟨-, rfl⟩ | ⟨-, rfl⟩
      · exact Or.inr (.expr _)
      · exact Or.inl ⟨_, rfl⟩
    case ifStmt =>
      rcases hmem with ⟨-, rfl⟩ | ⟨-, rfl⟩ | ⟨-, h⟩
      · exact Or.inr (.expr _)
      · exact Or.inl ⟨_, rfl⟩
      · obtain ⟨b, -, rfl⟩ := Option.map_eq_some_iff.mp h.symm
        exact Or.inl ⟨b, rfl⟩
    case throwStmt =>
      obtain ⟨e, -, rfl⟩ := Option.map_eq_some_iff.mp hmem.2.symm
      exact Or.inr (.expr e)
    case tryStmt =>
      rcases hmem with ⟨-, rfl⟩ | ⟨-, rfl⟩ | ⟨-, h⟩
      · exact Or.inl ⟨_, rfl⟩
      · exact Or.inl ⟨_, rfl⟩
      · obtain ⟨b, -, rfl⟩ := Option.map_eq_some_iff.mp h.symm
        exact Or.inl ⟨b, rfl⟩
    case blockStmt => cases hs
  · cases hx

/-- A statement at an address inside a block stands in the block. -/
theorem Block.holds_of_at? {b : Block} {t : Stmt} (h : (Part.block b).at? rest = some (.stmt t)) :
    b.Holds rest t := by
  -- an address goes down by two steps to a statement and by one more to a block of it
  induction hn : rest.length using Nat.strongRecOn generalizing b rest with
  | ind n ih =>
    subst hn
    rcases rest with _ | ⟨y, rest⟩
    · cases h
    rw [Part.at?_cons] at h
    obtain ⟨body, hbody, h⟩ := Option.bind_eq_some_iff.mp h
    obtain ⟨rfl, rfl⟩ : y = .child "body" ∧ body = Part.ofBody b.body := by
      rcases y with name | i
      · have hmem := Part.mem_children hbody
        simpa [Part.children] using hmem
      · cases hbody
    rcases rest with _ | ⟨z, rest⟩
    · cases h
    rw [Part.at?_cons] at h
    obtain ⟨part, hpart, h⟩ := Option.bind_eq_some_iff.mp h
    rcases z with name | i
    · cases hpart
    obtain ⟨s, hs, rfl⟩ : ∃ s, b.body[i]? = some s ∧ Part.ofStmt s = part := by
      simpa [Part.step?, Part.ofBody, Option.join_eq_some_iff] using hpart
    by_cases hbraces : ∃ c, s = .blockStmt c
    · obtain ⟨c, rfl⟩ := hbraces
      exact .braces hs (ih _ (by simp only [List.length_cons]; omega) h rfl)
    have hstmt : Part.ofStmt s = .stmt s := by
      cases s with
      | blockStmt c => exact absurd ⟨c, rfl⟩ hbraces
      | _ => rfl
    rw [hstmt] at h
    rcases rest with _ | ⟨x, rest⟩
    · obtain rfl : s = t := Part.stmt.inj (Option.some.inj h)
      exact .item hs
    rw [Part.at?_cons] at h
    obtain ⟨next, hx, h⟩ := Option.bind_eq_some_iff.mp h
    rcases Part.block_or_inert hstmt hx with ⟨c, rfl⟩ | hinert
    · exact .inside hs hx (ih _ (by simp only [List.length_cons]; omega) h rfl)
    · cases hinert.at? h

theorem Block.at?_item {b : Block} {s : Stmt} {i : Nat} (hs : b.body[i]? = some s)
    (rest : List Step) :
    (Part.block b).at? (.child "body" :: .item i :: rest) = (Part.ofStmt s).at? rest := by
  have hbody : (Part.block b).step? (.child "body") = some (Part.ofBody b.body) := rfl
  have hitem : (Part.ofBody b.body).step? (.item i) = some (Part.ofStmt s) := by
    simp [Part.step?, Part.ofBody, hs]
  rw [Part.at?_cons, hbody, Option.bind_some, Part.at?_cons, hitem, Option.bind_some]

theorem Block.Holds.at? {b : Block} {t : Stmt} (h : b.Holds rest t) :
    (Part.block b).at? rest = some (.ofStmt t) := by
  induction h with
  | item hs =>
    rw [Block.at?_item hs]
    rfl
  | @inside b i s x c rest t hs hx _ ih =>
    -- bare braces have a list of statements below them and no block
    have hstmt : Part.ofStmt s = .stmt s := by
      cases s with
      | blockStmt =>
        rcases x with name | i
        · have hmem := Part.mem_children hx
          simp [Part.children, Part.stmtChildren, Part.ofBody] at hmem
        · cases hx
      | _ => rfl
    rw [Block.at?_item hs, hstmt, Part.at?_cons, hx]
    exact ih
  | braces hs _ ih =>
    rw [Block.at?_item hs]
    exact ih

/-- A statement with a program point that stands in a block has its address there. -/
theorem Block.Holds.at?_of_point {b : Block} {t : Stmt} {l : Int} (h : b.Holds rest t)
    (hl : t.point? = some l) : (Part.block b).at? rest = some (.stmt t) := by
  rw [h.at?]
  cases t with
  | blockStmt => cases hl
  | _ => rfl

end Inert

/-! ### Catch clauses -/

/-- No finding is about the part of a program at an address or about one around it. -/
def Program.Spares (p : Program) (address : List Step) : Prop :=
  ∀ r ∈ p.reports, r.event.finding? ≠ none → ¬ r.address <+: address

/-- The part of a program at an address is not inside a region that is reported as dead. -/
def Program.OutsideDead (p : Program) (address : List Step) : Prop :=
  ∀ r ∈ p.reports, ∀ region o, r.event = .dead region o → ¬ r.address <+: address

section Catch

variable {p : Program} {offset : Int} {block handler : Block} {finalizer : Option Block}
  {param : Json} {address : List Step}

theorem Program.holds_of_at? {t : Stmt} (h : (Part.program p).at? address = some (.stmt t)) :
    p.block.Holds address t := by
  cases address with
  | nil => cases h
  | cons x rest => exact Block.holds_of_at? h

theorem Program.Spares.not_hidden (h : p.Spares address) : ¬ Hidden p.reports address := by
  rintro ⟨outer, hpre, hc⟩
  obtain ⟨r, hr, hfinding, rfl⟩ := hc.found
  exact h r hr hfinding hpre

/-- A statement with the only clause named `handler` is a `try`. -/
theorem Stmt.eq_tryStmt {s : Stmt} {b : Block}
    (h : (Part.stmt s).step? (.child "handler") = some (.block b)) :
    ∃ offset block finalizer param, s = .tryStmt offset block b finalizer param := by
  have hmem := Part.mem_children h
  cases s with
  | tryStmt offset block handler finalizer param =>
    obtain rfl : b = handler := by simpa [Part.children, Part.stmtChildren] using hmem
    exact ⟨offset, block, finalizer, param, rfl⟩
  | _ => simp [Part.children, Part.stmtChildren] at hmem

/-- A report of a catch clause stands at the handler of a `try`. -/
theorem Program.exists_try_of_report {r : Report} (hr : r ∈ p.reports) {o : Int}
    (hevent : r.event = .dead .catchClause o) :
    ∃ address offset block handler finalizer param,
      (Part.program p).at? address = some (.stmt (.tryStmt offset block handler finalizer param)) ∧
      r = ⟨address ++ [.child "handler"], .dead .catchClause handler.offset⟩ := by
  have hlocated := p.located_reports r hr
  obtain ⟨place, event⟩ := r
  obtain rfl : event = .dead .catchClause o := hevent
  obtain ⟨address, s, b, rfl, hs, hb, -, rfl⟩ := hlocated
  rw [Part.at?_snoc, hs, Option.bind_some] at hb
  obtain ⟨offset, block, finalizer, param, rfl⟩ := Stmt.eq_tryStmt hb
  exact ⟨address, offset, block, b, finalizer, param, hs, rfl⟩

/-- Of a `try` that the builder comes to, the clause is reported if nothing runs in the block. -/
theorem Stmt.mem_reports_tryStmt :
    ⟨address ++ [.child "handler"], .dead .catchClause handler.offset⟩ ∈
        (Stmt.tryStmt offset block handler finalizer param).reports address ↔
      block.fragment.initial = none ∧ handler.body ≠ [] := by
  constructor
  · intro h
    cases Stmt.origin h with
    | dropped hd hr =>
      obtain ⟨hne, -⟩ := Report.mem_drop hr
      cases hd with
      | handler hb => exact ⟨hb, hne⟩
    | entered he hr =>
      -- reports about a block are about its statements, which stand deeper
      have hbody := Block.body_prefix_of_mem_reports hr
      obtain rfl := eq_of_snoc_prefixes (prefix_of_snoc hbody) (List.prefix_refl _)
      exact absurd hbody not_snoc_prefix_self
    | braces hs _ => cases hs
    | skipped hs _ => cases hs
  · rintro ⟨hb, hne⟩
    exact (Stmt.Drops.handler hb).reports_subset address
      (Report.mem_drop_self address .catchClause hne)

/-- **When a catch clause is reported.**  The reports are what the builder notices, and a report of
a catch clause is about the handler of a `try`.  A handler is reported exactly if it is not empty,
no finding is about the `try` or a part around it, and no statement of the block, at any depth
outside the regions reported as dead, has a program point.  What else stands in the block does not
matter. -/
theorem Program.catch_clause_reported_iff (p : Program) :
    p.reports.map (·.event) = p.events ∧
    (∀ r ∈ p.reports, ∀ o, r.event = .dead .catchClause o →
      ∃ address offset block handler finalizer param,
        (Part.program p).at? address =
          some (.stmt (.tryStmt offset block handler finalizer param)) ∧
        r = ⟨address ++ [.child "handler"], .dead .catchClause handler.offset⟩) ∧
    ∀ address offset block handler finalizer param,
      (Part.program p).at? address = some (.stmt (.tryStmt offset block handler finalizer param)) →
      (⟨address ++ [.child "handler"], .dead .catchClause handler.offset⟩ ∈ p.reports ↔
        handler.body ≠ [] ∧ p.Spares address ∧
        ∀ rest s, (Part.block block).at? rest = some (.stmt s) →
          p.OutsideDead (address ++ .child "block" :: rest) → s.point? = none) := by
  refine ⟨p.reports_events, fun r hr o => Program.exists_try_of_report hr, ?_⟩
  intro address offset block handler finalizer param hat
  have hplace := (Program.holds_of_at? hat).kept_or_hidden []
  rw [List.nil_append] at hplace
  constructor
  · intro hr
    rcases hplace with hkept | ⟨outer, hpre, hc⟩
    · obtain ⟨hb, hne⟩ := Stmt.mem_reports_tryStmt.mp (hkept.below _ hr (List.prefix_append _ _))
      refine ⟨hne, hkept.spared, fun rest s hs houtside => ?_⟩
      have hblock := hkept.trans (Stmt.Enters.guarded.kept address) (List.prefix_append _ _)
      rcases (Block.holds_of_at? hs).initial_eq_none_or_dead hb (address ++ [.child "block"]) with
        hempty | ⟨r, hr, ⟨region, o, hdead⟩, haround⟩
      · exact Stmt.point?_eq_none hempty
      · rw [List.append_assoc, List.singleton_append] at haround
        exact absurd haround (houtside r (hblock.subset hr) region o hdead)
    · -- nothing is reported below a part that a finding is about
      have houter := hc.below _ hr (hpre.trans (List.prefix_append _ _))
      rw [← houter] at hpre
      exact absurd hpre not_snoc_prefix_self
  · rintro ⟨hne, hspares, hpoints⟩
    rcases hplace with hkept | hhidden
    · -- if something ran in the block, a statement with a point would be there
      by_cases hb : block.fragment.initial = none
      · exact hkept.subset (Stmt.mem_reports_tryStmt.mpr ⟨hb, hne⟩)
      · obtain ⟨rest, s, l, hholds, hl, hs⟩ := Block.exists_point block hb
        have hblock := hkept.trans (Stmt.Enters.guarded.kept address) (List.prefix_append _ _)
        have hinside := hblock.trans (hs _) (List.prefix_append _ _)
        rw [List.append_assoc, List.singleton_append] at hinside
        have hnone := hpoints rest s (hholds.at?_of_point hl) ?_
        · rw [hl] at hnone
          cases hnone
        · intro r hr region o hdead
          exact hinside.spared r hr (by rw [hdead]; exact Option.some_ne_none _)
    · exact absurd hhidden hspares.not_hidden

end Catch

/-- `try { try { switch (x) { } } catch (e) { throw e } } catch (f) { throw f }` -/
def doublyGuarded : Program where
  offset := 0
  body := [.tryStmt 0
    ⟨4, [.tryStmt 6 ⟨10, [.unsupported 12 (.str "SwitchStatement")]⟩
      ⟨40, [.throwStmt 42 (some (.identifier 48 "e"))]⟩ none (.str "e")]⟩
    ⟨64, [.throwStmt 66 (some (.identifier 72 "f"))]⟩ none (.str "f")]

/-- Both handlers are reported, and the only points in the outer block are in the inner handler. -/
theorem doublyGuarded_reported :
    (⟨[.child "body", .item 0, .child "handler"], .dead .catchClause 64⟩ ∈ doublyGuarded.reports ∧
      ⟨[.child "body", .item 0, .child "block", .child "body", .item 0, .child "handler"],
        .dead .catchClause 40⟩ ∈ doublyGuarded.reports) ∧
    ∀ rest s, (Part.block ⟨4, [.tryStmt 6 ⟨10, [.unsupported 12 (.str "SwitchStatement")]⟩
        ⟨40, [.throwStmt 42 (some (.identifier 48 "e"))]⟩ none (.str "e")]⟩).at? rest =
          some (.stmt s) →
      doublyGuarded.OutsideDead ([.child "body", .item 0] ++ .child "block" :: rest) →
      s.point? = none := by
  have hreports : doublyGuarded.reports =
      [⟨[.child "body", .item 0, .child "block", .child "body", .item 0, .child "block",
          .child "body", .item 0], .skipped (.str "SwitchStatement") 12⟩,
        ⟨[.child "body", .item 0, .child "block", .child "body", .item 0, .child "handler"],
          .dead .catchClause 40⟩,
        ⟨[.child "body", .item 0, .child "handler"], .dead .catchClause 64⟩] := rfl
  have houter : ⟨[.child "body", .item 0, .child "handler"], .dead .catchClause 64⟩ ∈
      doublyGuarded.reports := by simp [hreports]
  refine ⟨⟨houter, by simp [hreports]⟩, ?_⟩
  obtain ⟨-, -, hiff⟩ := Program.catch_clause_reported_iff doublyGuarded
  exact ((hiff [.child "body", .item 0] _ _ _ _ _ rfl).mp houter).2.2

/-- `try { for (;;) throw a; } catch (e) { throw e; }` -/
def loopDocument : Json :=
  .obj [("type", .str "Program"), ("start", .int 0), ("body", .arr
    [.obj [("type", .str "TryStatement"), ("start", .int 0),
      ("block", .obj [("type", .str "BlockStatement"), ("start", .int 4), ("body", .arr
        [.obj [("type", .str "ForStatement"), ("start", .int 6), ("init", .null), ("test", .null),
          ("update", .null), ("body", .obj [("type", .str "ThrowStatement"), ("start", .int 15),
            ("argument", .obj [("type", .str "Identifier"), ("start", .int 21),
              ("name", .str "a")])])]])]),
      ("handler", .obj [("type", .str "CatchClause"), ("start", .int 26),
        ("param", .obj [("type", .str "Identifier"), ("start", .int 33), ("name", .str "e")]),
        ("body", .obj [("type", .str "BlockStatement"), ("start", .int 36), ("body", .arr
          [.obj [("type", .str "ThrowStatement"), ("start", .int 38),
            ("argument", .obj [("type", .str "Identifier"), ("start", .int 44),
              ("name", .str "e")])]])])]),
      ("finalizer", .null)]])]

/-- A loop of a kind that the analysis does not know may raise, and the catch clause around it is
reported as dead all the same and left out of the graph. -/
theorem handler_of_unknown_loop_reported :
    ∃ p block handler, Program.ofEstree loopDocument = .ok p ∧
      (Part.program p).at? [.child "body", .item 0] =
        some (.stmt (.tryStmt 0 block handler none (.str "e"))) ∧
      ⟨[.child "body", .item 0, .child "handler"], .dead .catchClause handler.offset⟩ ∈ p.reports ∧
      p.graph.labels = [] ∧
      (Part.block block).at? [.child "body", .item 0] =
        some (.stmt (.unsupported 6 (.str "ForStatement"))) ∧
      p.OutsideDead ([.child "body", .item 0] ++
        .child "block" :: [.child "body", .item 0]) := by
  refine ⟨⟨0, [.tryStmt 0 ⟨4, [.unsupported 6 (.str "ForStatement")]⟩
    ⟨36, [.throwStmt 38 (some (.identifier 44 "e"))]⟩ none (.str "e")]⟩, _, _, rfl, rfl, ?_, rfl,
    rfl, ?_⟩
  · exact List.mem_cons_of_mem _ List.mem_cons_self
  · intro r hr region o hdead
    rcases List.mem_cons.mp hr with rfl | hr
    · cases hdead
    · obtain rfl := List.mem_singleton.mp hr
      decide

end Liveness
