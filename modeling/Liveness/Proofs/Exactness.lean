/-
Liveness/Proofs/Exactness.lean

Fragments that say exactly what happens.  A fragment describes the runs of a piece
of a program if its entry is where runs begin, its edges are the pairs of labels
that runs execute one right after the other, and its last labels and jumps are
where runs end in each of the four ways.

Each operation on fragments describes the operation on runs that it stands for.
The one proviso is about guarded blocks: the labels from which the handler is
entered have to be all entries and all `throw`s of the block, with nothing cut
off by a `throw` that stands before an entry.
-/
import Liveness.Proofs.Fragments
import Liveness.Proofs.Runs

namespace Liveness

open Behaviour

namespace Fragment

/-- The labels from which a fragment is left in a way. -/
def lasts (f : Fragment) : Completion → List Label
  | .normal => f.finals
  | .broke => f.breaks
  | .continued => f.continues
  | .threw => f.raises
  | .cut => []

/-- A fragment says exactly what happens in the runs of a piece of a program. -/
structure Describes (f : Fragment) (b : Behaviour Label) : Prop where
  /-- Runs begin at the entry. -/
  initial : ∀ l, f.initial = some l ↔ b.First l
  /-- Runs in which nothing is executed end normally, and there is one exactly if there is no
  entry. -/
  silent : ∀ k, b [] k ↔ f.initial = none ∧ k = .normal
  /-- Some run ends normally exactly if the fragment can. -/
  completes : f.reachesExit = true ↔ b.Ends .normal
  /-- Runs go along the edges, and along all of them. -/
  flows : ∀ x y, (x, y) ∈ f.flows ↔ b.Follows x y
  /-- Runs that end in a way end where the fragment is left in that way. -/
  leaves : ∀ k x, k ≠ .cut → (x ∈ f.lasts k ↔ b.Last k x)

namespace Describes

variable {f g : Fragment} {b c : Behaviour Label}

/-- Only the members of the lists matter. -/
theorem congr (h : f.Describes b) (hinitial : g.initial = f.initial)
    (hexit : g.reachesExit = f.reachesExit) (hflows : ∀ e, e ∈ g.flows ↔ e ∈ f.flows)
    (hlasts : ∀ k x, x ∈ g.lasts k ↔ x ∈ f.lasts k) : g.Describes b where
  initial l := by rw [hinitial, h.initial]
  silent k := by rw [hinitial, h.silent]
  completes := by rw [hexit, h.completes]
  flows x y := by rw [hflows, h.flows]
  leaves k x hk := by rw [hlasts, h.leaves k x hk]

theorem inhabited (h : f.Describes b) : ∃ t k, b t k := by
  rcases hi : f.initial with - | l
  · exact ⟨[], .normal, (h.silent .normal).mpr ⟨hi, rfl⟩⟩
  · obtain ⟨t, k, ht, -⟩ := (h.initial l).mp hi
    exact ⟨t, k, ht⟩

/-- Without an entry, nothing is executed. -/
theorem eq_idle (h : f.Describes b) (hi : f.initial = none) : b = idle := by
  funext t k
  apply propext
  cases t with
  | nil =>
    rw [h.silent]
    exact and_congr (iff_of_true hi rfl) Iff.rfl
  | cons x t =>
    -- the first label of a run would be the entry
    refine iff_of_false (fun ht => ?_) (fun ht => nomatch ht.1)
    have hx := (h.initial x).mpr ⟨x :: t, k, ht, rfl⟩
    rw [hi] at hx
    cases hx

theorem not_silent (h : f.Describes b) {l : Label} (hi : f.initial = some l) (k : Completion) :
    ¬ b [] k := by
  rw [h.silent, hi]
  rintro ⟨hnone, -⟩
  cases hnone

theorem mem_exits (h : f.Describes b) (x : Label) : x ∈ f.exits ↔ b.Last .normal x := by
  have hfinals : x ∈ f.finals ↔ b.Last .normal x := h.leaves .normal x (by decide)
  rw [exits]
  split
  next => exact hfinals
  next hr =>
    refine iff_of_false List.not_mem_nil fun hx => hr ?_
    exact h.completes.mpr hx.ends

end Describes

/-! ### Simple statements -/

theorem describes_empty : Describes .empty idle where
  initial l := by
    refine iff_of_false (fun h => nomatch h) ?_
    rintro ⟨t, k, ⟨rfl, -⟩, hl⟩
    cases hl
  silent k := by
    show [] = [] ∧ k = .normal ↔ none = none ∧ k = .normal
    simp
  completes := iff_of_true rfl ⟨[], rfl, rfl⟩
  flows x y := by
    refine iff_of_false List.not_mem_nil ?_
    rintro ⟨t, k, ⟨rfl, -⟩, hxy⟩
    have := hxy.length_le
    simp at this
  leaves k x hk := by
    refine iff_of_false (by cases k <;> exact List.not_mem_nil) ?_
    rintro ⟨t, ⟨rfl, -⟩, hx⟩
    cases hx

/-- A fragment of a single label that is left in one way. -/
theorem describes_single {f : Fragment} {l : Label} {k : Completion}
    (hinitial : f.initial = some l) (hflows : f.flows = [])
    (hexit : f.reachesExit = true ↔ k = .normal)
    (hlasts : ∀ j, f.lasts j = if j = k then [l] else []) : f.Describes (single l [k]) where
  initial x := by
    rw [hinitial, first_single, Option.some.injEq, eq_comm]
  silent j := by
    rw [hinitial]
    exact iff_of_false not_single_nil fun h => nomatch h.1
  completes := by
    rw [hexit, ends_single, List.mem_singleton, eq_comm]
    simp
  flows x y := by
    rw [hflows]
    exact iff_of_false List.not_mem_nil not_follows_single
  leaves j x hj := by
    rw [hlasts, last_single, List.mem_singleton]
    by_cases hjk : j = k
    · rw [if_pos hjk, List.mem_singleton]
      simp [hjk]
    · rw [if_neg hjk]
      simp [hjk, hj]

theorem describes_step (l : Label) : (step l).Describes (single l [.normal]) :=
  describes_single rfl rfl (by simp [step]) fun j => by cases j <;> rfl

theorem describes_throwing (l : Label) : (throwing l).Describes (single l [.threw]) :=
  describes_single rfl rfl (by simp [throwing]) fun j => by cases j <;> rfl

theorem describes_breaking (l : Label) : (breaking l).Describes (single l [.broke]) :=
  describes_single rfl rfl (by simp [breaking]) fun j => by cases j <;> rfl

theorem describes_continuing (l : Label) : (continuing l).Describes (single l [.continued]) :=
  describes_single rfl rfl (by simp [continuing]) fun j => by cases j <;> rfl

/-! ### Sequences -/

theorem mem_edgesTo {labels : List Label} {entry x y : Label} :
    (x, y) ∈ labels.map (·, entry) ↔ x ∈ labels ∧ entry = y := by
  rw [List.mem_map]
  constructor
  · rintro ⟨a, ha, he⟩
    obtain ⟨rfl, rfl⟩ := Prod.mk.inj he
    exact ⟨ha, rfl⟩
  · rintro ⟨hx, rfl⟩
    exact ⟨x, hx, rfl⟩

theorem Describes.andThen {f g : Fragment} {b c : Behaviour Label} (hf : f.Describes b)
    (hg : g.Describes c) (hr : f.reachesExit = true) (offset : Int) :
    (f.andThen offset g).Describes (b.andThen c) := by
  rcases hi : g.initial with - | entry
  · rw [andThen_of_none offset hi, hg.eq_idle hi, andThen_idle]
    exact hf
  have hends : b.Ends .normal := hf.completes.mp hr
  have hc : ∃ t k, c t k := hg.inhabited
  have hentry : ∀ l, c.First l ↔ entry = l := by
    intro l
    rw [← hg.initial, hi, Option.some.injEq]
  rw [andThen_of_some offset hi]
  constructor
  case initial =>
    intro l
    rw [first_chain hc, hf.silent, hentry, ← hf.initial, Option.or_eq_some_iff, Option.some.injEq]
    simp
  case silent =>
    intro k
    refine iff_of_false (fun h => ?_) (fun h => ?_)
    · rcases chain_nil.mp h with ⟨hb, hk⟩ | ⟨-, hk⟩
      · exact hk ((hf.silent k).mp hb).2
      · exact hg.not_silent hi k hk
    · cases hfi : f.initial <;> rw [hfi] at h <;> cases h.1
  case completes =>
    rw [ends_chain, hg.completes]
    simp [hends]
  case flows =>
    intro x y
    rw [follows_chain hc, ← hf.flows, ← hg.flows, hentry, ← hf.leaves .normal x (by decide),
      List.mem_append, List.mem_append, mem_edgesTo, or_assoc]
    refine or_congr Iff.rfl (or_comm.trans (or_congr ?_ Iff.rfl))
    exact ⟨fun h => ⟨hends, h⟩, fun h => h.2⟩
  case leaves =>
    intro k x hk
    have hsilent : ¬ c [] k := hg.not_silent hi k
    rw [last_chain]
    cases k with
    | normal =>
      -- once `g` has an entry, the last label of `f` is never the last one
      show x ∈ g.exits ↔ _
      rw [hg.mem_exits]
      simp [hends, hsilent]
    | cut => exact absurd rfl hk
    | _ =>
      rw [← hf.leaves _ x hk, ← hg.leaves _ x hk]
      simp [hends, hsilent, lasts]

/-- A fragment that may also be left by an exception right after its entry. -/
def leapt (f : Fragment) : Fragment :=
  { f with raises := f.initial.toList ++ f.raises }

theorem Describes.leapt {f : Fragment} {b : Behaviour Label} (h : f.Describes b) :
    f.leapt.Describes b.leaping where
  initial l := by rw [first_leaping, ← h.initial]; rfl
  silent k := by rw [leaping_nil, h.silent]; rfl
  completes := by rw [ends_leaping_normal, ← h.completes]; rfl
  flows x y := by rw [follows_leaping, ← h.flows]; rfl
  leaves k x hk := by
    rw [last_leaping, ← h.leaves k x hk, ← h.initial]
    cases k with
    | threw => simp [Fragment.leapt, lasts, or_comm]
    | _ => simp [Fragment.leapt, lasts]

/-- A block, which may be guarded: then it is also left at each of its entries. -/
def exposed (guarded : Bool) (f : Fragment) : Fragment :=
  { f with raises := (if guarded then f.entries.map (·.2) else []) ++ f.raises }

@[simp] theorem exposed_false (f : Fragment) : f.exposed false = f := rfl

/-- One more statement of a block. -/
theorem Describes.andThen_within {f g : Fragment} {b c : Behaviour Label} {guarded : Bool}
    (hf : (f.exposed guarded).Describes b) (hg : g.Describes c) (hr : f.reachesExit = true)
    (offset : Int) :
    ((f.andThen offset g).exposed guarded).Describes
      (b.andThen (Reading.structural.within guarded c)) := by
  cases guarded with
  | false => exact hf.andThen hg hr offset
  | true =>
    have h : ((f.exposed true).andThen offset g.leapt).Describes (b.andThen c.leaping) :=
      hf.andThen hg.leapt hr offset
    rcases hi : g.initial with - | entry
    · rw [andThen_of_none offset hi]
      rwa [andThen_of_none offset (show g.leapt.initial = none from hi)] at h
    · rw [andThen_of_some offset (show g.leapt.initial = some entry from hi)] at h
      rw [andThen_of_some offset hi]
      refine h.congr rfl rfl (fun e => Iff.rfl) fun k x => ?_
      cases k with
      | threw =>
        -- the same labels, but `leapt` lists the entry among the jumps of `g`
        simp only [exposed, Fragment.leapt, lasts, hi, List.map_append, List.mem_append, if_true,
          Option.toList_some, List.map_cons, List.map_nil]
        grind
      | _ => rfl

/-! ### Choices -/

/-- A branch in which nothing runs ends at the test. -/
theorem Describes.mem_branchExits {f : Fragment} {b : Behaviour Label} (h : f.Describes b)
    (test x : Label) :
    x ∈ branchExits test f ↔ b.Last .normal x ∨ (x = test ∧ b [] .normal) := by
  rw [branchExits, h.silent]
  by_cases hi : f.isEmpty = true
  · have hlast : ¬ b.Last .normal x := by
      rw [h.eq_idle (isEmpty_iff.mp hi)]
      rintro ⟨t, ⟨rfl, -⟩, hx⟩
      cases hx
    rw [if_pos hi, List.mem_singleton]
    simp [hlast, isEmpty_iff.mp hi]
  · rw [if_neg hi, h.mem_exits, or_iff_left]
    exact fun hx => hi (isEmpty_iff.mpr hx.2.1)

/-- What is known of each branch holds of their choice. -/
theorem exists_branch_iff {branches : List (Fragment × Behaviour Label)} {p : Fragment → Prop}
    {q : Behaviour Label → Prop} (h : ∀ br ∈ branches, (p br.1 ↔ q br.2)) :
    (∃ f ∈ branches.map (·.1), p f) ↔ ∃ b ∈ branches.map (·.2), q b := by
  constructor
  · rintro ⟨f, hf, hp⟩
    obtain ⟨br, hbr, rfl⟩ := List.mem_map.mp hf
    exact ⟨br.2, List.mem_map_of_mem hbr, (h br hbr).mp hp⟩
  · rintro ⟨b, hb, hq⟩
    obtain ⟨br, hbr, rfl⟩ := List.mem_map.mp hb
    exact ⟨br.1, List.mem_map_of_mem hbr, (h br hbr).mpr hq⟩

/-- A test with some branches, each of them described by its fragment. -/
theorem describes_choice (test : Label) (branches : List (Fragment × Behaviour Label))
    (h : ∀ br ∈ branches, br.1.Describes br.2) (hne : branches ≠ []) :
    (choice test false (branches.map (·.1))).Describes
      ((single test [.normal]).andThen (oneOf (branches.map (·.2)))) := by
  have hinhabited : ∃ t k, oneOf (branches.map (·.2)) t k := by
    obtain ⟨br, hbr⟩ := List.exists_mem_of_ne_nil _ hne
    obtain ⟨t, k, ht⟩ := (h br hbr).inhabited
    exact ⟨t, k, br.2, List.mem_map_of_mem hbr, ht⟩
  constructor
  case initial =>
    intro l
    rw [first_test hinhabited]
    exact Option.some_inj.trans eq_comm
  case silent =>
    intro k
    exact iff_of_false not_test_nil fun h => nomatch h.1
  case completes =>
    rw [ends_test, ends_oneOf]
    show (false || List.any _ _) = true ↔ _
    rw [Bool.false_or, List.any_eq_true]
    refine exists_branch_iff fun br hbr => ?_
    rw [Bool.or_eq_true_iff, (h br hbr).completes]
    exact or_iff_right_of_imp fun hi => ⟨[], ((h br hbr).silent _).mpr ⟨isEmpty_iff.mp hi, rfl⟩⟩
  case flows =>
    intro x y
    rw [follows_test hinhabited, first_oneOf, follows_oneOf,
      ← exists_branch_iff (p := (·.initial = some y)) fun br hbr => (h br hbr).initial y,
      ← exists_branch_iff (p := ((x, y) ∈ ·.flows)) fun br hbr => (h br hbr).flows x y]
    show (x, y) ∈ _ ++ _ ↔ _
    rw [List.mem_append, List.mem_flatMap, List.mem_flatMap]
    refine or_congr ⟨?_, ?_⟩ Iff.rfl
    · rintro ⟨f, hf, hxy⟩
      obtain ⟨l, hl, he⟩ := List.mem_map.mp hxy
      obtain ⟨rfl, rfl⟩ := Prod.mk.inj he
      exact ⟨rfl, f, hf, Option.mem_toList.mp hl⟩
    · rintro ⟨rfl, f, hf, hy⟩
      exact ⟨f, hf, List.mem_map_of_mem (Option.mem_toList.mpr hy)⟩
  case leaves =>
    intro k x hk
    rw [last_test hk, last_oneOf]
    cases k with
    | cut => exact absurd rfl hk
    | normal =>
      show x ∈ unique (_ ++ []) ↔ _
      rw [mem_unique, List.append_nil, List.mem_flatMap,
        exists_branch_iff (q := fun b => b.Last .normal x ∨ (x = test ∧ b [] .normal))
          fun br hbr => (h br hbr).mem_branchExits test x]
      constructor
      · rintro ⟨b, hb, hlast | ⟨hx, hsilent⟩⟩
        · exact Or.inl ⟨b, hb, hlast⟩
        · exact Or.inr ⟨hx, b, hb, hsilent⟩
      · rintro (⟨b, hb, hlast⟩ | ⟨hx, b, hb, hsilent⟩)
        · exact ⟨b, hb, Or.inl hlast⟩
        · exact ⟨b, hb, Or.inr ⟨hx, hsilent⟩⟩
    | _ =>
      rw [← exists_branch_iff (p := (x ∈ lasts · _)) fun br hbr => (h br hbr).leaves _ x hk,
        or_iff_left]
      · exact List.mem_flatMap
      · -- a branch in which nothing runs is not left by a jump
        rintro ⟨-, b, hb, hsilent⟩
        obtain ⟨br, hbr, rfl⟩ := List.mem_map.mp hb
        exact nomatch (((h br hbr).silent _).mp hsilent).2

/-- A test that may also end the whole: falling through is one more branch. -/
theorem describes_choice_withoutElse (test : Label)
    (branches : List (Fragment × Behaviour Label))
    (h : ∀ br ∈ branches, br.1.Describes br.2) :
    (choice test true (branches.map (·.1))).Describes
      ((single test [.normal]).andThen (oneOf (branches.map (·.2) ++ [idle]))) := by
  have hmore : ∀ br ∈ branches ++ [(.empty, idle)], br.1.Describes br.2 := by
    intro br hbr
    rcases List.mem_append.mp hbr with hbr | hbr
    · exact h br hbr
    · rw [List.mem_singleton.mp hbr]
      exact describes_empty
  have hchoice := describes_choice test _ hmore (List.append_ne_nil_of_right_ne_nil _ (by simp))
  rw [List.map_append, List.map_append] at hchoice
  refine hchoice.congr rfl ?_ (fun e => ?_) fun k x => ?_
  · simp [choice, isEmpty, empty]
  · simp [choice, empty]
  · cases k <;> simp [choice, lasts, branchExits, isEmpty, empty]

/-! ### Loops -/

theorem exists_outOfLoop?_none {A : Completion → Prop} :
    (∃ j : Completion, j.outOfLoop? = none ∧ A j) ↔ A .normal ∨ A .continued := by
  constructor
  · rintro ⟨j, hj, h⟩
    cases j with
    | normal => exact Or.inl h
    | continued => exact Or.inr h
    | _ => cases hj
  · rintro (h | h)
    · exact ⟨.normal, rfl, h⟩
    · exact ⟨.continued, rfl, h⟩

theorem exists_outOfLoop?_some {k : Completion} {A : Completion → Prop} :
    (∃ j : Completion, j.outOfLoop? = some k ∧ A j) ↔
      (k = .normal ∧ A .broke) ∨ (k = .threw ∧ A .threw) ∨ (k = .cut ∧ A .cut) := by
  constructor
  · rintro ⟨j, hj, h⟩
    cases j with
    | broke => exact Or.inl ⟨(Option.some.inj hj).symm, h⟩
    | threw => exact Or.inr (Or.inl ⟨(Option.some.inj hj).symm, h⟩)
    | cut => exact Or.inr (Or.inr ⟨(Option.some.inj hj).symm, h⟩)
    | _ => cases hj
  · rintro (⟨rfl, h⟩ | ⟨rfl, h⟩ | ⟨rfl, h⟩)
    · exact ⟨.broke, rfl, h⟩
    · exact ⟨.threw, rfl, h⟩
    · exact ⟨.cut, rfl, h⟩

section Loop

variable {f : Fragment} {b : Behaviour Label}

/-- The edges of a loop: into the body, inside it, and back to the test. -/
theorem Describes.mem_flows_loop (h : f.Describes b) (test x y : Label) :
    (x, y) ∈ (loop test f).flows ↔
      (x = test ∧ b.First y) ∨ b.Follows x y ∨
        (y = test ∧ ∃ j, j.outOfLoop? = none ∧ (b.Last j x ∨ (x = test ∧ b [] j))) := by
  rw [exists_outOfLoop?_none]
  rcases hi : f.initial with - | entry
  · have hempty := describes_empty
    rw [loop_of_none test hi, h.eq_idle hi, ← hempty.initial, ← hempty.flows, hempty.silent,
      hempty.silent, ← hempty.leaves .normal x (by decide),
      ← hempty.leaves .continued x (by decide)]
    simp [empty, lasts, and_comm]
  · rw [loop_of_some test hi, ← h.initial, ← h.flows, ← h.mem_exits,
      ← h.leaves .continued x (by decide)]
    have hsilent := h.not_silent hi
    simp only [hsilent, hi, and_false, or_false, Option.some.injEq, List.mem_append, List.mem_cons,
      Prod.mk.injEq, mem_edgesTo, mem_unique, lasts]
    grind

/-- Where a loop is left. -/
theorem Describes.mem_lasts_loop (h : f.Describes b) (test x : Label) {k : Completion}
    (hk : k ≠ .cut) : x ∈ (loop test f).lasts k ↔
      (k = .normal ∧ x = test) ∨ ∃ j, j.outOfLoop? = some k ∧ b.Last j x := by
  rw [exists_outOfLoop?_some]
  rcases hi : f.initial with - | entry
  · have hempty := describes_empty
    rw [loop_of_none test hi, h.eq_idle hi, ← hempty.leaves .broke x (by decide),
      ← hempty.leaves .threw x (by decide)]
    cases k <;> simp_all [empty, lasts]
  · rw [loop_of_some test hi, ← h.leaves .broke x (by decide), ← h.leaves .threw x (by decide)]
    cases k <;> simp_all [lasts]

/-- A loop whose test may go either way. -/
theorem Describes.loop (h : f.Describes b) (test : Label) {P Q : Prop} (hP : P) (hQ : Q) :
    (loop test f).Describes (Loop (single test [.normal]) P Q b) := by
  have hends : Completion.normal ∈ [Completion.normal] := List.mem_singleton_self _
  constructor
  case initial =>
    intro l
    rw [initial_loop, first_loop]
    exact Option.some_inj.trans eq_comm
  case silent =>
    intro k
    rw [initial_loop]
    exact iff_of_false (fun h => nomatch head?_of_loop h) fun h => nomatch h.1
  case completes =>
    exact iff_of_true (reachesExit_loop test f) ⟨[test], .done ⟨rfl, Or.inr hends⟩ hQ⟩
  case flows =>
    intro x y
    rw [h.mem_flows_loop, follows_loop hP hends]
  case leaves =>
    intro k x hk
    rw [h.mem_lasts_loop test x hk, last_loop hP hQ (fun j hj => ?_) hk]
    rw [((h.silent j).mp hj).2]
    rfl

end Loop

/-! ### Guarded blocks -/

section Guarded

variable {block handler : Fragment} {b c : Behaviour Label}

/-- The edges of a handler are those inside it and those into it. -/
theorem Describes.mem_handled (hh : handler.Describes c) (x y : Label) :
    (x, y) ∈ handled block handler ↔ c.Follows x y ∨ (x ∈ block.sources ∧ c.First y) := by
  rw [← hh.flows, ← hh.initial, handled]
  rcases hi : handler.initial with - | first
  · have hempty : (x, y) ∉ handler.flows := by
      rw [hh.flows, hh.eq_idle hi, ← describes_empty.flows]
      exact List.not_mem_nil
    simp [hempty]
  · show (x, y) ∈ _ ++ _ ↔ _
    rw [List.mem_append, mem_edgesTo, Option.some.injEq, or_comm]

theorem Describes.mem_guardExits (hb : (block.exposed true).Describes b) (hh : handler.Describes c)
    (x : Label) : x ∈ guardExits block handler ↔
      b.Last .normal x ∨ c.Last .normal x ∨ (x ∈ block.sources ∧ c [] .normal) := by
  rw [guardExits, mem_unique, List.mem_append]
  refine or_congr (hb.mem_exits x) ?_
  rw [hh.silent]
  by_cases hi : handler.isEmpty = true
  · have hlast : ¬ c.Last .normal x := by
      rw [hh.eq_idle (isEmpty_iff.mp hi), ← describes_empty.leaves .normal x (by decide)]
      exact List.not_mem_nil
    rw [if_pos hi]
    simp [hlast, isEmpty_iff.mp hi]
  · rw [if_neg hi, hh.mem_exits, or_iff_left]
    exact fun hx => hi (isEmpty_iff.mpr hx.2.1)

/-- A block with its handler.  The handler is entered from wherever the exposed block is left by
an exception. -/
theorem Describes.guarded (hb : (block.exposed true).Describes b) (hh : handler.Describes c)
    (hsources : ∀ x, x ∈ block.sources ↔ x ∈ (block.exposed true).raises)
    (hne : block.initial ≠ none → block.sources ≠ []) :
    (guarded block handler .empty).Describes (b.caught c) := by
  rcases hi : block.initial with - | entry
  · rw [guarded_of_empty handler .empty hi, hb.eq_idle hi, idle_caught]
    exact describes_empty
  have hsilent : ∀ k, ¬ b [] k := hb.not_silent hi
  have hthrew : ∀ x, b.Last .threw x ↔ x ∈ block.sources := by
    intro x
    rw [hsources, ← hb.leaves .threw x (by decide)]
    rfl
  -- something can be raised, so the handler is entered in some run
  have hends : b.Ends .threw := by
    obtain ⟨x, hx⟩ := List.exists_mem_of_ne_nil _ (hne (hi ▸ Option.some_ne_none entry))
    exact ((hthrew x).mpr hx).ends
  have hexits : ∀ x, x ∈ guardExits block handler ↔ (b.caught c).Last .normal x := by
    intro x
    rw [hb.mem_guardExits hh, last_chain, hthrew]
    simp [hends]
  have hnil : ∀ k, ¬ b.caught c [] k := by
    intro k h
    rcases chain_nil.mp h with ⟨h, -⟩ | ⟨h, -⟩
    · exact hsilent _ h
    · exact hsilent _ h
  rw [guarded_open handler hi rfl]
  constructor
  case initial =>
    intro l
    rw [first_chain hh.inhabited, ← hb.initial, or_iff_left fun h => hsilent _ h.1]
    exact (congrArg (· = some l) hi.symm).to_iff
  case silent =>
    intro k
    exact iff_of_false (hnil k) fun h => nomatch h.1
  case completes =>
    rw [ends_iff_last (hnil .normal)]
    simp only [← hexits, Bool.not_eq_true', List.isEmpty_eq_false_iff_exists_mem]
  case flows =>
    intro x y
    rw [List.mem_append, hh.mem_handled, follows_chain hh.inhabited, hthrew, ← hb.flows]
    simp [hends, exposed]
  case leaves =>
    intro k x hk
    cases k with
    | cut => exact absurd rfl hk
    | normal => exact hexits x
    | threw =>
      rw [last_chain, ← hh.leaves .threw x hk, hh.silent]
      simp [lasts, hends]
    | _ =>
      rw [last_chain, ← hb.leaves _ x hk, ← hh.leaves _ x hk, hh.silent]
      simp [lasts, hends, exposed, empty]

end Guarded

end Fragment

end Liveness
