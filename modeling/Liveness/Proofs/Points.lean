/-
Liveness/Proofs/Points.lean

The labels of a fragment, and the program points inside a statement.  No operation
on fragments uses a label that its parts do not have (`Fragment.Within`), so the
labels of a fragment come from the simple statements and the tests that it is made
of.
-/
import Liveness.Proofs.Fragments

namespace Liveness

namespace Fragment

/-! ### Labels of fragments -/

/-- All labels of a fragment are among some points. -/
structure Within (f : Fragment) (points : List Label) : Prop where
  initial : ∀ l, f.initial = some l → l ∈ points
  finals : f.finals ⊆ points
  flows : ∀ e ∈ f.flows, e.1 ∈ points ∧ e.2 ∈ points
  throwAt : ∀ l, f.throwAt = some l → l ∈ points
  breaks : f.breaks ⊆ points
  continues : f.continues ⊆ points
  raises : f.raises ⊆ points
  entries : ∀ e ∈ f.entries, e.2 ∈ points

section Within

variable {f next block handler finalizer : Fragment} {points : List Label}

theorem Within.mono {more : List Label} (h : f.Within points) (hsub : points ⊆ more) :
    f.Within more where
  initial l hl := hsub (h.initial l hl)
  finals := List.Subset.trans h.finals hsub
  flows e he := ⟨hsub (h.flows e he).1, hsub (h.flows e he).2⟩
  throwAt l hl := hsub (h.throwAt l hl)
  breaks := List.Subset.trans h.breaks hsub
  continues := List.Subset.trans h.continues hsub
  raises := List.Subset.trans h.raises hsub
  entries e he := hsub (h.entries e he)

theorem within_empty : empty.Within points := by
  constructor <;> simp [empty]

theorem within_step {label : Label} (h : label ∈ points) : (step label).Within points := by
  constructor <;> simp [step, h]

theorem within_throwing {label : Label} (h : label ∈ points) : (throwing label).Within points := by
  constructor <;> simp [throwing, h]

theorem within_breaking {label : Label} (h : label ∈ points) : (breaking label).Within points := by
  constructor <;> simp [breaking, h]

theorem within_continuing {label : Label} (h : label ∈ points) :
    (continuing label).Within points := by
  constructor <;> simp [continuing, h]

theorem exits_subset (f : Fragment) : f.exits ⊆ f.finals := by
  rw [exits]
  split
  · exact fun l hl => hl
  · exact List.nil_subset _

theorem Within.andThen (hf : f.Within points) (hnext : next.Within points) (offset : Int) :
    (f.andThen offset next).Within points := by
  rcases hn : next.initial with - | entry
  · rw [andThen_of_none offset hn]
    exact hf
  · have hentry := hnext.initial entry hn
    rw [andThen_of_some offset hn]
    constructor
    case initial =>
      intro l hl
      rcases Option.or_eq_some_iff.mp hl with hl | ⟨-, hl⟩
      · exact hf.initial l hl
      · exact Option.some.inj hl ▸ hentry
    case finals => exact List.Subset.trans (exits_subset next) hnext.finals
    case flows =>
      intro e he
      rcases List.mem_append.mp he with he | he
      · rcases List.mem_append.mp he with he | he
        · exact hf.flows e he
        · obtain ⟨a, ha, rfl⟩ := List.mem_map.mp he
          exact ⟨hf.finals ha, hentry⟩
      · exact hnext.flows e he
    case throwAt =>
      intro l hl
      rcases Option.or_eq_some_iff.mp hl with hl | ⟨-, hl⟩
      · exact hf.throwAt l hl
      · exact hnext.throwAt l hl
    case breaks => exact List.append_subset.mpr ⟨hf.breaks, hnext.breaks⟩
    case continues => exact List.append_subset.mpr ⟨hf.continues, hnext.continues⟩
    case raises => exact List.append_subset.mpr ⟨hf.raises, hnext.raises⟩
    case entries =>
      intro e he
      rcases List.mem_append.mp he with he | he
      · exact hf.entries e he
      · rw [List.mem_singleton.mp he]
        exact hentry

theorem flatMap_subset_points {branches : List Fragment} {g : Fragment → List Label}
    (h : ∀ b ∈ branches, g b ⊆ points) : branches.flatMap g ⊆ points := by
  intro l hl
  obtain ⟨b, hb, hl⟩ := List.mem_flatMap.mp hl
  exact h b hb hl

theorem within_choice {branches : List Fragment} {test : Label} (htest : test ∈ points)
    (withoutElse : Bool) (h : ∀ b ∈ branches, b.Within points) :
    (choice test withoutElse branches).Within points := by
  constructor
  case initial => intro l hl; exact Option.some.inj hl ▸ htest
  case finals =>
    intro l hl
    rcases List.mem_append.mp (mem_unique.mp hl) with hl | hl
    · refine flatMap_subset_points (fun b hb => ?_) hl
      rw [branchExits]
      split
      · exact fun l hl => List.mem_singleton.mp hl ▸ htest
      · exact List.Subset.trans (exits_subset b) (h b hb).finals
    · split at hl
      · exact List.mem_singleton.mp hl ▸ htest
      · cases hl
  case flows =>
    intro e he
    rcases List.mem_append.mp he with he | he
    · obtain ⟨b, hb, he⟩ := List.mem_flatMap.mp he
      obtain ⟨l, hl, rfl⟩ := List.mem_map.mp he
      exact ⟨htest, (h b hb).initial l (Option.mem_toList.mp hl)⟩
    · obtain ⟨b, hb, he⟩ := List.mem_flatMap.mp he
      exact (h b hb).flows e he
  case throwAt =>
    intro l hl
    dsimp only [choice] at hl
    split at hl
    · obtain ⟨b, hhead, hb⟩ := Option.bind_eq_some_iff.mp hl
      exact (h b (List.mem_of_head? hhead)).throwAt l hb
    · cases hl
  case breaks => exact flatMap_subset_points fun b hb => (h b hb).breaks
  case continues => exact flatMap_subset_points fun b hb => (h b hb).continues
  case raises => exact flatMap_subset_points fun b hb => (h b hb).raises
  case entries =>
    intro e he
    cases he

theorem within_loop {test : Label} (htest : test ∈ points) (h : block.Within points) :
    (loop test block).Within points := by
  rcases hb : block.initial with - | entry
  · rw [loop_of_none test hb]
    constructor <;> simp [htest]
  · rw [loop_of_some test hb]
    constructor
    case initial => intro l hl; exact Option.some.inj hl ▸ htest
    case finals =>
      intro l hl
      rcases List.mem_cons.mp (mem_unique.mp hl) with rfl | hl
      · exact htest
      · exact h.breaks hl
    case flows =>
      intro e he
      rcases List.mem_append.mp he with he | he
      · rcases List.mem_cons.mp he with rfl | he
        · exact ⟨htest, h.initial entry hb⟩
        · exact h.flows e he
      · obtain ⟨a, ha, rfl⟩ := List.mem_map.mp he
        refine ⟨?_, htest⟩
        rcases List.mem_append.mp (mem_unique.mp ha) with ha | ha
        · exact h.finals (exits_subset block ha)
        · exact h.continues ha
    case raises => exact h.raises
    all_goals exact nofun

theorem Within.sources (h : block.Within points) : block.sources ⊆ points := by
  intro l hl
  rcases List.mem_append.mp (mem_unique.mp hl) with hl | hl
  · obtain ⟨e, he, rfl⟩ := List.mem_map.mp hl
    exact h.entries e ((List.takeWhile_sublist _).subset he)
  · exact h.raises hl

theorem Within.guardExits (hb : block.Within points) (hh : handler.Within points) :
    guardExits block handler ⊆ points := by
  intro l hl
  rcases List.mem_append.mp (mem_unique.mp hl) with hl | hl
  · exact hb.finals (exits_subset block hl)
  · split at hl
    · exact hb.sources hl
    · exact hh.finals (exits_subset handler hl)

theorem Within.handled (hb : block.Within points) (hh : handler.Within points) :
    ∀ e ∈ handled block handler, e.1 ∈ points ∧ e.2 ∈ points := by
  intro e he
  rw [Fragment.handled] at he
  split at he
  next => cases he
  next first hfirst =>
    rcases List.mem_append.mp he with he | he
    · obtain ⟨a, ha, rfl⟩ := List.mem_map.mp he
      exact ⟨hb.sources ha, hh.initial first hfirst⟩
    · exact hh.flows e he

theorem Within.rethrown (hh : handler.Within points) {l : Label}
    (h : rethrown block handler = some l) : l ∈ points := by
  rw [Fragment.rethrown] at h
  split at h
  · exact hh.throwAt l h
  · cases h

theorem within_guarded (hb : block.Within points)
    (hh : block.initial ≠ none → handler.Within points) (hf : finalizer.Within points) :
    (guarded block handler finalizer).Within points := by
  rcases hi : block.initial with - | entry
  · -- the handler of such a block is not looked at
    rw [guarded_of_empty _ _ hi]
    exact hf
  replace hh : handler.Within points := hh (by rw [hi]; exact Option.some_ne_none _)
  have hbreaks := List.append_subset.mpr ⟨List.append_subset.mpr ⟨hb.breaks, hh.breaks⟩, hf.breaks⟩
  have hcontinues := List.append_subset.mpr
    ⟨List.append_subset.mpr ⟨hb.continues, hh.continues⟩, hf.continues⟩
  have hflows : ∀ e ∈ block.flows ++ handled block handler, e.1 ∈ points ∧ e.2 ∈ points := by
    intro e he
    rcases List.mem_append.mp he with he | he
    · exact hb.flows e he
    · exact hb.handled hh e he
  rcases hlast : finalizer.initial with - | last
  · rw [guarded_open handler hi hlast]
    exact ⟨fun l hl => Option.some.inj hl ▸ hb.initial entry hi, hb.guardExits hh, hflows,
      fun l hl => hh.rethrown hl, hbreaks, hcontinues, hh.raises, nofun⟩
  · rw [guarded_closed handler hi hlast]
    constructor
    case initial => intro l hl; exact Option.some.inj hl ▸ hb.initial entry hi
    case finals =>
      dsimp only
      split
      · exact hf.finals
      · exact List.nil_subset _
    case flows =>
      intro e he
      rcases List.mem_append.mp he with he | he
      · rcases List.mem_append.mp he with he | he
        · exact hflows e he
        · obtain ⟨a, ha, rfl⟩ := List.mem_map.mp he
          refine ⟨?_, hf.initial last hlast⟩
          rcases List.mem_append.mp (mem_unique.mp ha) with ha | ha
          · exact hb.guardExits hh ha
          · exact hh.raises ha
      · exact hf.flows e he
    case throwAt =>
      intro l hl
      dsimp only at hl
      split at hl
      · cases hl
      · rcases Option.or_eq_some_iff.mp hl with hl | ⟨-, hl⟩
        · exact hf.throwAt l hl
        · exact hh.rethrown hl
    case breaks => exact hbreaks
    case continues => exact hcontinues
    case raises =>
      intro l hl
      rcases List.mem_append.mp (mem_unique.mp hl) with hl | hl
      · exact hh.raises hl
      · exact hf.raises hl
    case entries => exact nofun

end Within

end Fragment

/-! ### Program points inside statements -/

/-- The labels of the program points inside a statement, its own included. -/
def Stmt.points (s : Stmt) : List Label :=
  (s :: s.nested).filterMap Stmt.point?

/-- The labels of the program points inside a block. -/
def Block.points (b : Block) : List Label :=
  b.statements.filterMap Stmt.point?

/-- What is nested in a statement is what is nested in its blocks. -/
theorem Stmt.mem_nested {s r : Stmt} : r ∈ s.nested ↔ ∃ b ∈ s.blocks, r ∈ b.statements := by
  rcases s with _ | _ | _ | ⟨_, _, _, _ | _, _⟩ | _ | _ | _ | ⟨_, _, _, _ | _, _⟩ | _ | _ <;>
    simp [Stmt.nested, Stmt.blocks]

theorem Stmt.mem_flatten {ss : List Stmt} {r : Stmt} :
    r ∈ Stmt.flatten ss ↔ ∃ s ∈ ss, r = s ∨ r ∈ s.nested := by
  induction ss with
  | nil => simp [Stmt.flatten]
  | cons s rest ih => simp [Stmt.flatten, ih, or_assoc]

theorem Block.points_subset {s : Stmt} {b : Block} (h : b ∈ s.blocks) : b.points ⊆ s.points := by
  intro l hl
  obtain ⟨r, hr, hl⟩ := List.mem_filterMap.mp hl
  have hr : r ∈ s.nested := Stmt.mem_nested.mpr ⟨b, h, hr⟩
  exact List.mem_filterMap.mpr ⟨r, List.mem_cons_of_mem _ hr, hl⟩

theorem Stmt.mem_points_of_point? {s : Stmt} {l : Label} (h : s.point? = some l) : l ∈ s.points :=
  List.mem_filterMap.mpr ⟨s, List.mem_cons_self, h⟩

theorem Stmt.points_flatten_cons (s : Stmt) (rest : List Stmt) :
    (Stmt.flatten (s :: rest)).filterMap Stmt.point? =
      s.points ++ (Stmt.flatten rest).filterMap Stmt.point? := by
  rw [Stmt.flatten, Stmt.points, ← List.filterMap_append, List.cons_append]

end Liveness
