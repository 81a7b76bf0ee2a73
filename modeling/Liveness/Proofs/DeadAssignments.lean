/-
Liveness/Proofs/DeadAssignments.lean

What a dead assignment in a report means.  The finding comes out of five steps
(labels, graph, reads and writes, live variables, sorting), and its meaning is a
statement about the first and the last of them only: the label is one of the
graph, the name is the least one written there, and no path from the label comes
to a read of the name before another write.

Sorting is stable, so at one offset what the graph found stays in front of the
dead assignments.  That there is at most one of these for a label rests on the
table of writes, which has a key only once however often it is written.
-/
import Liveness.Analysis
import Liveness.Proofs.LivePaths

namespace Liveness

/-! ### Least names -/

/-- The least name of a set, in the order of code points. -/
theorem NameSet.least?_eq_some_iff {s : NameSet} {x : String} :
    s.least? = some x ↔ x ∈ s ∧ ∀ y ∈ s, x ≤ y := by
  obtain ⟨names, hsorted⟩ := s
  show names.head? = some x ↔ x ∈ names ∧ ∀ y ∈ names, x ≤ y
  cases names with
  | nil => simp
  | cons first rest =>
    obtain ⟨hfirst, -⟩ := List.pairwise_cons.mp hsorted
    rw [List.head?_cons, Option.some.injEq]
    constructor
    · rintro rfl
      refine ⟨List.mem_cons_self, fun y hy => ?_⟩
      rcases List.mem_cons.mp hy with rfl | hy
      · exact String.le_refl y
      · exact Std.le_of_lt (hfirst y hy)
    · rintro ⟨hx, hleast⟩
      rcases List.mem_cons.mp hx with rfl | hx
      · rfl
      · exact absurd (hfirst x hx) (Std.not_lt.mpr (hleast first List.mem_cons_self))

/-! ### Stable sorting -/

namespace Sorting

variable {α : Type} {key : α → Int} {R : α → α → Prop}

theorem pairwise_insertBy_stable {x : α} {xs : List α}
    (hx : ∀ y ∈ xs, key x = key y → R x y)
    (h : xs.Pairwise fun a b => key a < key b ∨ key a = key b ∧ R a b) :
    (insertBy (fun a b => key a < key b) x xs).Pairwise
      fun a b => key a < key b ∨ key a = key b ∧ R a b := by
  induction xs with
  | nil => simp [insertBy]
  | cons y ys ih =>
    obtain ⟨hy, hys⟩ := List.pairwise_cons.mp h
    by_cases hlt : key y < key x
    · rw [insertBy, if_pos (decide_eq_true hlt)]
      refine List.pairwise_cons.mpr
        ⟨fun z hz => ?_, ih (fun z hz => hx z (List.mem_cons_of_mem _ hz)) hys⟩
      rcases List.mem_cons.mp ((insertBy_perm _ x ys).mem_iff.mp hz) with rfl | hz
      · exact Or.inl hlt
      · exact hy z hz
    · rw [insertBy, if_neg (by simpa using hlt)]
      refine List.pairwise_cons.mpr ⟨fun z hz => ?_, h⟩
      -- nothing from `y` on is below `x`, so `x` is strictly below or comes first by rule
      have hle : key x ≤ key z := by
        have hxy : key x ≤ key y := Int.not_lt.mp hlt
        rcases List.mem_cons.mp hz with rfl | hz
        · exact hxy
        · rcases hy z hz with h | ⟨h, -⟩ <;> omega
      rcases Int.lt_or_eq_of_le hle with h | h
      · exact Or.inl h
      · exact Or.inr ⟨h, hx z hz h⟩

/-- What holds between items of one key, the earlier one first, still does after sorting. -/
theorem pairwise_byKey_stable {xs : List α}
    (h : xs.Pairwise fun a b => key a = key b → R a b) :
    (byKey key xs).Pairwise fun a b => key a < key b ∨ key a = key b ∧ R a b := by
  induction xs with
  | nil => exact .nil
  | cons x xs ih =>
    obtain ⟨hx, hxs⟩ := List.pairwise_cons.mp h
    refine pairwise_insertBy_stable (fun y hy => hx y ?_) (ih hxs)
    exact mem_stableBy.mp hy

/-- An item that nothing is below goes first. -/
theorem insertBy_of_not_less {less : α → α → Bool} {x : α} {xs : List α}
    (h : ∀ y ∈ xs, less y x = false) : insertBy less x xs = x :: xs := by
  cases xs with
  | nil => rfl
  | cons y ys => rw [insertBy, h y List.mem_cons_self, if_neg Bool.false_ne_true]

theorem filter_insertBy (keep : α → Bool) (x : α) {xs : List α}
    (h : xs.Pairwise fun a b => key a ≤ key b) :
    (insertBy (fun a b => key a < key b) x xs).filter keep =
      if keep x then insertBy (fun a b => key a < key b) x (xs.filter keep)
        else xs.filter keep := by
  induction xs with
  | nil => cases hx : keep x <;> simp [insertBy, hx]
  | cons y ys ih =>
    obtain ⟨hy, hys⟩ := List.pairwise_cons.mp h
    by_cases hlt : key y < key x
    · rw [insertBy, if_pos (decide_eq_true hlt), List.filter_cons, ih hys, List.filter_cons]
      cases keep y <;> cases keep x <;> simp [insertBy, hlt]
    · -- what comes after `y` is not below `x` either, whether it is kept or not
      have hleast : ∀ z ∈ (y :: ys).filter keep, decide (key z < key x) = false := by
        intro z hz
        have hyz : key y ≤ key z := by
          rcases List.mem_cons.mp (List.mem_filter.mp hz).1 with rfl | hz
          · exact Int.le_refl _
          · exact hy z hz
        exact decide_eq_false (by omega)
      rw [insertBy, if_neg (by simpa using hlt), List.filter_cons, insertBy_of_not_less hleast]

/-- Leaving out items and sorting can be done in either order. -/
theorem filter_byKey (keep : α → Bool) (xs : List α) :
    (byKey key xs).filter keep = byKey key (xs.filter keep) := by
  induction xs with
  | nil => rfl
  | cons x xs ih =>
    rw [List.filter_cons]
    refine (filter_insertBy keep x (pairwise_byKey key xs)).trans ?_
    cases keep x
    · exact ih
    · exact congrArg (insertBy _ x) ih

end Sorting

/-! ### Findings by kind -/

theorem Finding.deadAssignment_inj {x y : String} {l m : Label} :
    Finding.deadAssignment x l = Finding.deadAssignment y m ↔ x = y ∧ l = m := by
  constructor
  · intro h
    injection h with _ hoffset hdetail
    exact ⟨(String.append_right_inj _).mp hdetail, hoffset⟩
  · rintro ⟨rfl, rfl⟩
    rfl

/-- What is noticed about a program is never a dead assignment. -/
theorem Event.kind_ne_deadAssignment {e : Event} {f : Finding} (h : e.finding? = some f) :
    f.kind ≠ .deadAssignment := by
  cases e with
  | unreachable kind offset =>
    obtain rfl := Option.some.inj h
    exact FindingKind.noConfusion
  | dead region offset =>
    obtain rfl := Option.some.inj h
    exact FindingKind.noConfusion
  | skipped kind offset => cases h

theorem kind_ne_of_mem_filterMap {events : List Event} {f : Finding}
    (h : f ∈ events.filterMap Event.finding?) : f.kind ≠ .deadAssignment := by
  obtain ⟨e, -, he⟩ := List.mem_filterMap.mp h
  exact Event.kind_ne_deadAssignment he

theorem allFindings_perm (events : List Event) (dead : List (Label × String)) :
    (allFindings events dead).Perm
      (events.filterMap Event.finding? ++ dead.map fun (l, x) => .deadAssignment x l) :=
  Sorting.stableBy_perm _ _

theorem mem_allFindings {events : List Event} {dead : List (Label × String)} {f : Finding} :
    f ∈ allFindings events dead ↔ f ∈ events.filterMap Event.finding? ∨
      ∃ l x, (l, x) ∈ dead ∧ f = .deadAssignment x l := by
  rw [(allFindings_perm events dead).mem_iff, List.mem_append]
  simp only [List.mem_map, Prod.exists, eq_comm]

theorem deadAssignment_mem_allFindings {events : List Event} {dead : List (Label × String)}
    {l : Label} {x : String} :
    Finding.deadAssignment x l ∈ allFindings events dead ↔ (l, x) ∈ dead := by
  rw [mem_allFindings]
  constructor
  · rintro (h | ⟨l', x', hdead, he⟩)
    · exact absurd rfl (kind_ne_of_mem_filterMap h)
    · obtain ⟨rfl, rfl⟩ := Finding.deadAssignment_inj.mp he
      exact hdead
  · intro h
    exact Or.inr ⟨l, x, h, rfl⟩

/-- Findings stand by offset, those of the graph in front. -/
theorem pairwise_allFindings (events : List Event) (dead : List (Label × String)) :
    (allFindings events dead).Pairwise fun f g => f.offset < g.offset ∨
      f.offset = g.offset ∧ (f.kind = .deadAssignment → g.kind = .deadAssignment) := by
  refine Sorting.pairwise_byKey_stable (List.pairwise_append.mpr ⟨?_, ?_, ?_⟩)
  · refine List.pairwise_iff_forall_sublist.mpr fun {f g} hsub _ hf => ?_
    exact absurd hf (kind_ne_of_mem_filterMap (hsub.subset List.mem_cons_self))
  · refine List.pairwise_map.mpr (List.pairwise_iff_forall_sublist.mpr ?_)
    exact fun _ _ _ => rfl
  · intro f _ g hg _ _
    obtain ⟨row, -, rfl⟩ := List.mem_map.mp hg
    rfl

/-- What is not a dead assignment is what was noticed about the program, by offset. -/
theorem filter_allFindings_events (events : List Event) (dead : List (Label × String)) :
    (allFindings events dead).filter (·.kind ≠ .deadAssignment) =
      Sorting.byKey (·.offset) (events.filterMap Event.finding?) := by
  rw [allFindings, Sorting.filter_byKey, List.filter_append, List.filter_eq_self.mpr,
    List.filter_eq_nil_iff.mpr, List.append_nil]
  · intro f hf
    obtain ⟨row, -, rfl⟩ := List.mem_map.mp hf
    simp [Finding.deadAssignment]
  · intro f hf
    simpa using kind_ne_of_mem_filterMap hf

/-- What is a dead assignment does not depend on what else was noticed. -/
theorem filter_allFindings_dead (events : List Event) (dead : List (Label × String)) :
    (allFindings events dead).filter (·.kind = .deadAssignment) =
      Sorting.byKey (·.offset) (dead.map fun row => .deadAssignment row.2 row.1) := by
  rw [allFindings, Sorting.filter_byKey, List.filter_append, List.filter_eq_nil_iff.mpr,
    List.nil_append, List.filter_eq_self.mpr]
  · intro f hf
    obtain ⟨row, -, rfl⟩ := List.mem_map.mp hf
    simp [Finding.deadAssignment]
  · intro f hf
    simpa using kind_ne_of_mem_filterMap hf

theorem filter_allFindings_perm (events : List Event) (dead : List (Label × String)) :
    ((allFindings events dead).filter (·.kind ≠ .deadAssignment)).Perm
      (events.filterMap Event.finding?) := by
  rw [filter_allFindings_events]
  exact Sorting.stableBy_perm _ _

/-! ### Tables of reads and writes -/

namespace Effects

/-- No label has two rows. -/
structure KeysOnce (e : Effects) : Prop where
  gen : e.gen.keys.Nodup
  kill : e.kill.keys.Nodup

theorem KeysOnce.record {e : Effects} (h : e.KeysOnce) (a : Access) : (e.record a).KeysOnce :=
  ⟨Table.nodup_keys_set h.gen _ _, Table.nodup_keys_set h.kill _ _⟩

/-- However often a label is written, it has one row. -/
theorem KeysOnce.foldl {α : Type} (access : α → Access) (items : List α) {e : Effects}
    (h : e.KeysOnce) : (items.foldl (fun e item => e.record (access item)) e).KeysOnce := by
  induction items generalizing e with
  | nil => exact h
  | cons item rest ih => exact ih (h.record (access item))

theorem keysOnce_allEffects (p : Program) (observers : List (Option String)) :
    (p.allEffects observers).KeysOnce := by
  apply KeysOnce.foldl (fun label => ⟨label, [], []⟩)
  apply KeysOnce.foldl id
  exact ⟨List.nodup_nil, List.nodup_nil⟩

theorem nodup_kill_allEffects (p : Program) (observers : List (Option String)) :
    (p.allEffects observers).kill.keys.Nodup :=
  (keysOnce_allEffects p observers).kill

end Effects

/-! ### Dead assignments -/

theorem mem_deadAssignments {kill exit : Table Label} (hkill : kill.keys.Nodup) {l : Label}
    {x : String} :
    (l, x) ∈ deadAssignments kill exit ↔
      l ∈ exit.keys ∧ (kill.get l).least? = some x ∧ x ∉ exit.get l := by
  rw [deadAssignments, List.mem_filterMap]
  constructor
  · rintro ⟨⟨label, names⟩, hrow, hfound⟩
    have hget := (Table.mem_rows_iff hkill).mp hrow
    rcases hleast : names.least? with - | name
    · simp [hleast] at hfound
    · rcases hout : exit.get? label with - | out
      · simp [hleast, hout] at hfound
      · by_cases hlive : name ∈ out
        · simp [hleast, hout, hlive] at hfound
        · simp only [hleast, hout, if_neg hlive, Option.some.injEq, Prod.mk.injEq] at hfound
          obtain ⟨rfl, rfl⟩ := hfound
          refine ⟨Table.mem_keys_iff.mpr ⟨out, hout⟩, ?_, ?_⟩
          · rw [Table.get_of_get? hget, hleast]
          · rw [Table.get_of_get? hout]
            exact hlive
  · rintro ⟨hexit, hleast, hdead⟩
    -- a set with a least name is not empty, so the label has a row
    have hkey : l ∈ kill.keys := by
      refine Classical.byContradiction fun hno => ?_
      rw [Table.get_of_not_mem_keys hno] at hleast
      cases hleast
    refine ⟨(l, kill.get l), (Table.mem_rows_iff hkill).mpr (Table.get?_of_mem_keys hkey), ?_⟩
    simp [hleast, Table.get?_of_mem_keys hexit, hdead]

/-- Rows of different labels that give findings at their own labels give different ones. -/
theorem nodup_labels_filterMap {rows : List (Label × NameSet)}
    {find : Label × NameSet → Option (Label × String)}
    (hfind : ∀ row found, find row = some found → found.1 = row.1)
    (h : (rows.map (·.1)).Nodup) : ((rows.filterMap find).map (·.1)).Nodup := by
  refine List.pairwise_map.mpr ((List.pairwise_map.mp h).filterMap _ ?_)
  intro row row' hne found hfound found' hfound'
  rw [hfind row found hfound, hfind row' found' hfound']
  exact hne

theorem nodup_deadAssignments {kill exit : Table Label} (hkill : kill.keys.Nodup) :
    ((deadAssignments kill exit).map (·.1)).Nodup := by
  refine nodup_labels_filterMap (fun row found h => ?_) hkill
  dsimp only at h
  split at h
  · split at h
    · cases h
    · rw [← Option.some.inj h]
  · cases h

theorem length_filter_le_one {dead : List (Label × String)} (h : (dead.map (·.1)).Nodup)
    (l : Label) : (dead.filter (·.1 = l)).length ≤ 1 := by
  induction dead with
  | nil => simp
  | cons row rest ih =>
    obtain ⟨hrow, hrest⟩ := List.nodup_cons.mp h
    by_cases hl : row.1 = l
    · -- the label is used up
      have hnone : rest.filter (·.1 = l) = [] := by
        refine List.filter_eq_nil_iff.mpr fun row' hm he => hrow ?_
        have he' : row'.1 = row.1 := (of_decide_eq_true he).trans hl.symm
        exact List.mem_map.mpr ⟨row', hm, he'⟩
      rw [List.filter_cons_of_pos (by simpa using hl), hnone]
      exact Nat.le_refl 1
    · rw [List.filter_cons_of_neg (by simpa using hl)]
      exact ih hrest

/-- A label has no more dead assignments in a report than were found for it. -/
theorem length_filter_allFindings (events : List Event) (dead : List (Label × String))
    (l : Label) :
    ((allFindings events dead).filter
        fun f => f.kind = .deadAssignment ∧ f.offset = l).length =
      (dead.filter (·.1 = l)).length := by
  rw [((allFindings_perm events dead).filter _).length_eq, List.filter_append, List.length_append]
  have hevents : (events.filterMap Event.finding?).filter
      (fun f => f.kind = .deadAssignment ∧ f.offset = l) = [] := by
    refine List.filter_eq_nil_iff.mpr fun f hf he => ?_
    exact kind_ne_of_mem_filterMap hf (of_decide_eq_true he).1
  rw [hevents, List.filter_map, List.length_map, List.length_nil, Nat.zero_add]
  congr 2
  funext row
  simp [Finding.deadAssignment]

/-! ### The whole analysis -/

namespace Program

/-- What an analysis is made of. -/
theorem analyze_eq_ok {p : Program} {config : Config} {a : Analysis}
    (h : p.analyze config = .ok a) :
    a.graph = p.graph ∧ a.effects = p.allEffects config.calls ∧ p.live config = .ok a.live ∧
      a.findings = allFindings p.events (deadAssignments a.effects.kill a.live.facts.exit) := by
  rw [analyze] at h
  split at h
  · cases h
  · split at h
    · cases h
    · next live hlive =>
      obtain rfl := Except.ok.inj h
      exact ⟨rfl, rfl, hlive, rfl⟩

/-- An analysis that can be computed is there, with what was found of it. -/
theorem exists_analysis {p : Program} {config : Config} {P : Analysis → Prop}
    [DecidablePred P] (h : (p.analyze config).toOption.any (fun a => P a) = true) :
    ∃ a, p.analyze config = .ok a ∧ P a := by
  rcases hrun : p.analyze config with e | a
  · rw [hrun] at h
    cases h
  · rw [hrun] at h
    exact ⟨a, rfl, of_decide_eq_true h⟩

/-- The exit sets of an analysis are about the labels of the graph, and hold the names that are
read ahead of a label after. -/
theorem analyze_exit {p : Program} {config : Config} {a : Analysis}
    (h : p.analyze config = .ok a) (l : Label) :
    (l ∈ a.live.facts.exit.keys ↔ l ∈ a.graph.labels) ∧
      (l ∈ a.graph.labels → ∀ x, x ∈ a.live.facts.exit.get l ↔
        ∃ m, (l, m) ∈ a.graph.flows ∧ ReadAhead a.graph.flows a.effects.kill a.effects.gen x m) := by
  obtain ⟨hgraph, heffects, hlive, -⟩ := analyze_eq_ok h
  rw [live, ← heffects, ← hgraph] at hlive
  exact ⟨(mem_exit_keys hlive).trans a.graph.mem_live_nodes,
    fun hl x => mem_exit_iff_readAhead hlive (a.graph.mem_live_nodes.mpr hl)⟩

end Program

/-- **The meaning of a dead assignment.**  In the analysis of a program, `x` is reported at `l`
exactly if `l` is a label of the graph, `x` is the least name written there, and no path that
leaves `l` comes to a read of `x` before it goes through another write of `x`.  There is at most
one such finding for a label.  All findings stand by offset, and at one offset those of the graph,
which are all the others, stand in front. -/
theorem deadAssignment_findings (p : Program) (config : Config) (a : Analysis)
    (h : p.analyze config = .ok a) :
    (∀ l x, Finding.deadAssignment x l ∈ a.findings ↔
        l ∈ a.graph.labels ∧
        (x ∈ a.effects.kill.get l ∧ ∀ y ∈ a.effects.kill.get l, x ≤ y) ∧
        ¬ ∃ next passed last, (l, next) ∈ a.graph.flows ∧
          FlowPath a.graph.flows next passed last ∧ x ∈ a.effects.gen.get last ∧
          ∀ m ∈ passed, x ∉ a.effects.kill.get m) ∧
      (∀ f ∈ a.findings, f.kind = .deadAssignment → ∃ x, f = .deadAssignment x f.offset) ∧
      (∀ l, (a.findings.filter
        fun f => f.kind = .deadAssignment ∧ f.offset = l).length ≤ 1) ∧
      (a.findings.Pairwise fun f g => f.offset < g.offset ∨
        f.offset = g.offset ∧ (f.kind = .deadAssignment → g.kind = .deadAssignment)) ∧
      (a.findings.filter (·.kind ≠ .deadAssignment)).Perm p.block.findings := by
  obtain ⟨hgraph, heffects, -, hfindings⟩ := Program.analyze_eq_ok h
  have hkill : a.effects.kill.keys.Nodup := by
    rw [heffects]
    exact Effects.nodup_kill_allEffects p config.calls
  rw [hfindings]
  refine ⟨?_, ?_, ?_, pairwise_allFindings _ _, filter_allFindings_perm _ _⟩
  · intro l x
    obtain ⟨hkeys, hexit⟩ := Program.analyze_exit h l
    rw [deadAssignment_mem_allFindings, mem_deadAssignments hkill, hkeys,
      NameSet.least?_eq_some_iff]
    refine and_congr_right fun hl => and_congr_right fun _ => not_congr ?_
    rw [hexit hl x]
    constructor
    · rintro ⟨next, hflow, passed, last, hread⟩
      exact ⟨next, passed, last, hflow, hread⟩
    · rintro ⟨next, passed, last, hflow, hread⟩
      exact ⟨next, hflow, passed, last, hread⟩
  · intro f hf hkind
    rcases mem_allFindings.mp hf with hevent | ⟨l, x, -, rfl⟩
    · exact absurd hkind (kind_ne_of_mem_filterMap hevent)
    · exact ⟨x, rfl⟩
  · intro l
    rw [length_filter_allFindings]
    exact length_filter_le_one (nodup_deadAssignments hkill) l

/-- The program `x = 1; x = y; log(x)`, in which the first write is dead. -/
def overwritten : Program :=
  ⟨0, [.exprStmt 0 (.assignment 0 (.str "=") (.identifier 0 "x") (.literal 4 (.int 1) .null)),
    .exprStmt 7 (.assignment 7 (.str "=") (.identifier 7 "x") (.identifier 11 "y")),
    .exprStmt 14 (.call 14 (.identifier 14 "log") [some (.identifier 18 "x")])]⟩

/-- The first write of `overwritten` is reported, so no path from it comes to a read. -/
theorem overwritten_first_write :
    ∃ a, overwritten.analyze ⟨["log"], 10⟩ = .ok a ∧ Finding.deadAssignment "x" 0 ∈ a.findings ∧
      ¬ ∃ next passed last, ((0 : Label), next) ∈ a.graph.flows ∧
        FlowPath a.graph.flows next passed last ∧ "x" ∈ a.effects.gen.get last ∧
        ∀ m ∈ passed, "x" ∉ a.effects.kill.get m := by
  have hfound : (overwritten.analyze ⟨["log"], 10⟩).toOption.any
      (Finding.deadAssignment "x" 0 ∈ ·.findings) = true := by decide +kernel
  rcases hrun : overwritten.analyze ⟨["log"], 10⟩ with e | a
  · rw [hrun] at hfound
    cases hfound
  · rw [hrun] at hfound
    have hmem : Finding.deadAssignment "x" 0 ∈ a.findings := of_decide_eq_true hfound
    obtain ⟨hmeaning, -⟩ := deadAssignment_findings _ _ _ hrun
    exact ⟨a, rfl, hmem, ((hmeaning 0 "x").mp hmem).2.2⟩

end Liveness
