/-
Liveness/Proofs/Routing.lean

Trails go along the edges of the flow graph.  Where a trail executes one label
right after another, with nothing held up in between, there is an edge; and where
a label is executed right after a jump that was held up goes on, there is an edge
from the label of that jump.  A `break` or a `continue` that goes on may be held up
again, by the way out of a `try` further out.  Where that comes last before a label
there need not be an edge to it (`rerouted_edges_missing`).

A fragment carries the trails of a piece of a program if they begin at its entry,
go along its edges and end where it is left.  Each operation on fragments carries
the operation on trails that it stands for, so by induction over the tree the
fragment of a program carries its trails.
-/
import Liveness.Proofs.Exactness
import Liveness.Proofs.Trails
import Mathlib.Data.List.Chain

namespace Liveness

open Behaviour

/-- Nothing, or an edge to the label executed next from the one that the trail goes on from. -/
def Mark.Linked (flows : List Flow) (m n : Mark) : Prop :=
  ∀ x y, m.source? = some x → n = .point y → (x, y) ∈ flows

theorem linked_mono {flows more : List Flow} {t : List Mark} (h : t.IsChain (Mark.Linked flows))
    (hsub : flows ⊆ more) : t.IsChain (Mark.Linked more) :=
  h.imp fun _ _ hmn x y hx hy => hsub (hmn x y hx hy)

/-- Two trails one after the other, with an edge at the seam. -/
theorem linked_append {flows : List Flow} {s t : List Mark} (hs : s.IsChain (Mark.Linked flows))
    (ht : t.IsChain (Mark.Linked flows))
    (hseam : ∀ m x y, s.getLast? = some m → m.source? = some x → t.head? = some (.point y) →
      (x, y) ∈ flows) : (s ++ t).IsChain (Mark.Linked flows) := by
  refine List.isChain_append.mpr ⟨hs, ht, ?_⟩
  intro m hm n hn x y hx hny
  rw [hny] at hn
  exact hseam m x y hm hx hn

namespace Fragment

/-- A trail that ends in the way `k` begins at the entry of a fragment, goes along its edges and
ends where the fragment is left in that way. -/
structure Admits (f : Fragment) (t : List Mark) (k : Completion) : Prop where
  /-- The first mark is the entry, and without an entry there is none. -/
  begins : t.head? = f.initial.map .point
  /-- A trail without marks ends normally. -/
  silent : t = [] → k = .normal
  linked : t.IsChain (Mark.Linked f.flows)
  leaves : k ≠ .cut → ∀ m, t.getLast? = some m → ∃ x, m.source? = some x ∧ x ∈ f.lasts k
  completes : k = .normal → f.reachesExit = true

/-- A fragment admits all trails of a piece of a program. -/
def Carries (f : Fragment) (b : Behaviour Mark) : Prop :=
  ∀ t k, b t k → f.Admits t k

section Admits

variable {f g : Fragment} {t : List Mark} {k : Completion} {l : Label}

/-- Of a trail that is not watched to its end, only the way so far matters. -/
theorem admits_cut (hl : f.initial = some l) (hbegins : t.head? = some (.point l))
    (hlinked : t.IsChain (Mark.Linked f.flows)) : f.Admits t .cut where
  begins := by
    rw [hl]
    exact hbegins
  silent := by
    rintro rfl
    cases hbegins
  linked := hlinked
  leaves h := absurd rfl h
  completes h := absurd h (by decide)

theorem Admits.eq_nil (h : f.Admits t k) (hi : f.initial = none) : t = [] ∧ k = .normal := by
  have hhead : t.head? = none := by
    rw [h.begins, hi]
    rfl
  have ht : t = [] := List.head?_eq_none_iff.mp hhead
  exact ⟨ht, h.silent ht⟩

theorem Admits.head? (h : f.Admits t k) (hi : f.initial = some l) : t.head? = some (.point l) := by
  rw [h.begins, hi]
  rfl

theorem Admits.ne_nil (h : f.Admits t k) (hi : f.initial = some l) : t ≠ [] := by
  intro ht
  have hhead := h.head? hi
  rw [ht] at hhead
  cases hhead

theorem Admits.initial_of_head? (h : f.Admits t k) (hl : t.head? = some (.point l)) :
    f.initial = some l := by
  rw [h.begins, Option.map_eq_some_iff] at hl
  obtain ⟨l', hl', he⟩ := hl
  cases he
  exact hl'

/-- The last mark of two trails is one of the second, if something runs there. -/
theorem Admits.getLast?_of_append (h : f.Admits t k) (hi : f.initial = some l) {s : List Mark}
    {m : Mark} (hm : (s ++ t).getLast? = some m) : t.getLast? = some m :=
  (getLast?_append_eq_some.mp hm).resolve_right fun hnil => h.ne_nil hi hnil.1

/-- The label from which a trail that was watched to its end goes on. -/
theorem Admits.mem_lasts (h : f.Admits t k) (hk : k ≠ .cut) {m : Mark} {x : Label}
    (hm : t.getLast? = some m) (hx : m.source? = some x) : x ∈ f.lasts k := by
  obtain ⟨x', hx', hmem⟩ := h.leaves hk m hm
  obtain rfl : x = x' := Option.some.inj (hx.symm.trans hx')
  exact hmem

/-- A trail of a fragment in which something runs goes on from somewhere. -/
theorem Admits.exists_last (h : f.Admits t k) (hi : f.initial = some l) (hk : k ≠ .cut) :
    ∃ m x, t.getLast? = some m ∧ m.source? = some x ∧ x ∈ f.lasts k := by
  obtain ⟨m, hm⟩ := Option.ne_none_iff_exists'.mp fun hnone =>
    h.ne_nil hi (List.getLast?_eq_none_iff.mp hnone)
  obtain ⟨x, hx⟩ := h.leaves hk m hm
  exact ⟨m, x, hm, hx⟩

theorem Admits.mem_exits (h : f.Admits t .normal) (hl : l ∈ f.finals) : l ∈ f.exits := by
  rw [exits, if_pos (h.completes rfl)]
  exact hl

end Admits

/-! ### Simple statements and sequences -/

theorem carries_empty : empty.Carries idle := by
  rintro t k ⟨rfl, rfl⟩
  exact ⟨rfl, fun _ => rfl, List.isChain_nil, fun _ m hm => (by cases hm), fun _ => rfl⟩

theorem carries_single {f : Fragment} {l : Label} {k : Completion} (hi : f.initial = some l)
    (hl : l ∈ f.lasts k) (hr : k = .normal → f.reachesExit = true) :
    f.Carries (single (.point l) [k]) := by
  rintro t j ⟨rfl, hj⟩
  have hjk : j ≠ .cut → j = k := fun hcut => List.mem_singleton.mp (hj.resolve_left hcut)
  refine ⟨?_, fun h => absurd h (List.cons_ne_nil _ _), List.isChain_singleton _, ?_, ?_⟩
  · rw [hi]
    rfl
  · intro hcut m hm
    obtain rfl := Option.some.inj hm
    rw [hjk hcut]
    exact ⟨l, rfl, hl⟩
  · rintro rfl
    exact hr (hjk (by decide)).symm

section AndThen

variable {f g : Fragment} {b c : Behaviour Mark}

theorem Admits.andThen_left {t : List Mark} {k : Completion} (h : f.Admits t k) (hk : k ≠ .normal)
    (offset : Int) (g : Fragment) : (f.andThen offset g).Admits t k := by
  rcases hi : g.initial with - | entry
  · rw [andThen_of_none offset hi]
    exact h
  rw [andThen_of_some offset hi]
  constructor
  case begins =>
    -- without an entry, `f` would have ended normally
    rcases hfi : f.initial with - | l
    · exact absurd (h.eq_nil hfi).2 hk
    · exact h.head? hfi
  case silent => exact h.silent
  case linked =>
    refine linked_mono h.linked ?_
    intro e he
    exact List.mem_append_left _ (List.mem_append_left _ he)
  case leaves =>
    intro hcut m hm
    obtain ⟨x, hx, hmem⟩ := h.leaves hcut m hm
    refine ⟨x, hx, ?_⟩
    cases k with
    | normal => exact absurd rfl hk
    | cut => exact absurd rfl hcut
    | broke | continued | threw => exact List.mem_append_left _ hmem
  case completes => exact fun h => absurd h hk

theorem Admits.andThen_right {t₁ t₂ : List Mark} {k : Completion} (h₁ : f.Admits t₁ .normal)
    (h₂ : g.Admits t₂ k) (offset : Int) : (f.andThen offset g).Admits (t₁ ++ t₂) k := by
  rcases hi : g.initial with - | entry
  · obtain ⟨rfl, rfl⟩ := h₂.eq_nil hi
    rw [andThen_of_none offset hi, List.append_nil]
    exact h₁
  rw [andThen_of_some offset hi]
  constructor
  case begins =>
    rw [List.head?_append, h₁.begins, h₂.begins, hi]
    cases f.initial <;> rfl
  case silent => exact fun h => h₂.silent (List.append_eq_nil_iff.mp h).2
  case linked =>
    refine linked_append (linked_mono h₁.linked ?_) (linked_mono h₂.linked ?_) ?_
    · intro e he
      exact List.mem_append_left _ (List.mem_append_left _ he)
    · exact List.subset_append_right _ _
    · intro m x y hm hx hy
      have hfinal : x ∈ f.finals := h₁.mem_lasts (by decide) hm hx
      obtain rfl : entry = y := Option.some.inj (hi.symm.trans (h₂.initial_of_head? hy))
      exact List.mem_append_left _ (List.mem_append_right _ (List.mem_map_of_mem hfinal))
  case leaves =>
    intro hcut m hm
    have hm := h₂.getLast?_of_append hi hm
    obtain ⟨x, hx, hmem⟩ := h₂.leaves hcut m hm
    refine ⟨x, hx, ?_⟩
    cases k with
    | normal => exact h₂.mem_exits hmem
    | cut => exact absurd rfl hcut
    | broke | continued | threw => exact List.mem_append_right _ hmem
  case completes => exact h₂.completes

theorem Carries.andThen (hf : f.Carries b) (hg : g.Carries c) (offset : Int) :
    (f.andThen offset g).Carries (b.andThen c) := by
  rintro t k (⟨h, hk⟩ | ⟨t₁, t₂, rfl, h₁, h₂⟩)
  · exact (hf t k h).andThen_left hk offset g
  · exact (hf t₁ .normal h₁).andThen_right (hg t₂ k h₂) offset

end AndThen

/-! ### Choices -/

/-- A test, and after it a branch or, where there is no `else`, nothing. -/
theorem carries_choice {branches : List Fragment} {rest : Behaviour Mark} (test : Label)
    (withoutElse : Bool)
    (h : ∀ t k, rest t k → (∃ g ∈ branches, g.Admits t k) ∨
      (withoutElse = true ∧ t = [] ∧ k = .normal)) :
    (choice test withoutElse branches).Carries
      ((single (.point test) [.normal]).andThen rest) := by
  rintro t k (⟨⟨rfl, hk⟩, hne⟩ | ⟨t₁, t₂, rfl, ⟨rfl, -⟩, h₂⟩)
  · -- the trail is cut right after the test
    obtain rfl : k = .cut := hk.resolve_right fun hmem => hne (List.mem_singleton.mp hmem)
    exact admits_cut rfl rfl (List.isChain_singleton _)
  rcases h t₂ k h₂ with ⟨g, hg, ha⟩ | ⟨hw, rfl, rfl⟩
  · constructor
    case begins => rfl
    case silent => exact fun h => absurd h (List.cons_ne_nil _ _)
    case linked =>
      refine linked_append (List.isChain_singleton _) (linked_mono ha.linked ?_) ?_
      · intro e he
        exact List.mem_append_right _ (List.mem_flatMap.mpr ⟨g, hg, he⟩)
      · intro m x y hm hx hy
        obtain rfl := Option.some.inj hm
        obtain rfl := Option.some.inj hx
        refine List.mem_append_left _ (List.mem_flatMap.mpr ⟨g, hg, ?_⟩)
        rw [ha.initial_of_head? hy]
        exact List.mem_singleton_self _
    case leaves =>
      intro hcut m hm
      rcases hi : g.initial with - | entry
      · -- nothing runs in the branch, so the test is the last label
        obtain ⟨rfl, rfl⟩ := ha.eq_nil hi
        obtain rfl := Option.some.inj hm
        refine ⟨test, rfl, mem_unique.mpr (List.mem_append_left _ ?_)⟩
        refine List.mem_flatMap.mpr ⟨g, hg, ?_⟩
        rw [branchExits, if_pos (isEmpty_iff.mpr hi)]
        exact List.mem_singleton_self test
      · have hm := ha.getLast?_of_append hi hm
        obtain ⟨x, hx, hmem⟩ := ha.leaves hcut m hm
        refine ⟨x, hx, ?_⟩
        cases k with
        | normal =>
          refine mem_unique.mpr (List.mem_append_left _ (List.mem_flatMap.mpr ⟨g, hg, ?_⟩))
          rw [branchExits, if_neg (isEmpty_ne_true hi)]
          exact ha.mem_exits hmem
        | cut => exact absurd rfl hcut
        | broke | continued | threw => exact List.mem_flatMap.mpr ⟨g, hg, hmem⟩
    case completes => exact fun hk => reachesExit_choice hg (ha.completes hk)
  · constructor
    case begins => rfl
    case silent => exact fun h => absurd h (List.cons_ne_nil _ _)
    case linked => exact List.isChain_singleton _
    case leaves =>
      intro _ m hm
      obtain rfl := Option.some.inj hm
      refine ⟨test, rfl, mem_unique.mpr (List.mem_append_right _ ?_)⟩
      rw [if_pos hw]
      exact List.mem_singleton_self test
    case completes =>
      intro _
      exact Bool.or_eq_true_iff.mpr (Or.inl hw)

/-! ### Loops -/

section Loop

variable {body : Fragment} {test : Label}

/-- A test and a round of the body go along the edges of the loop. -/
theorem Admits.linked_round {t : List Mark} {k : Completion} (h : body.Admits t k) :
    ([Mark.point test] ++ t).IsChain (Mark.Linked (loop test body).flows) := by
  rcases hi : body.initial with - | entry
  · obtain ⟨rfl, -⟩ := h.eq_nil hi
    exact List.isChain_singleton _
  rw [loop_of_some test hi]
  refine linked_append (List.isChain_singleton _) (linked_mono h.linked ?_) ?_
  · intro e he
    exact List.mem_append_left _ (List.mem_cons_of_mem _ he)
  · intro m x y hm hx hy
    obtain rfl := Option.some.inj hm
    obtain rfl := Option.some.inj hx
    obtain rfl : entry = y := Option.some.inj (hi.symm.trans (h.initial_of_head? hy))
    exact List.mem_append_left _ List.mem_cons_self

/-- What leaves the body leaves the loop. -/
theorem Admits.mem_lasts_loop {t : List Mark} {k k' : Completion} (h : body.Admits t k)
    (hk : k.outOfLoop? = some k') (hcut : k' ≠ .cut) {m : Mark} (hm : t.getLast? = some m) :
    ∃ x, m.source? = some x ∧ x ∈ (loop test body).lasts k' := by
  rcases hi : body.initial with - | entry
  · obtain ⟨rfl, -⟩ := h.eq_nil hi
    cases hm
  have hkcut : k ≠ .cut := by
    rintro rfl
    exact hcut (Option.some.inj hk).symm
  obtain ⟨x, hx, hmem⟩ := h.leaves hkcut m hm
  refine ⟨x, hx, ?_⟩
  rw [loop_of_some test hi]
  cases k with
  | normal | continued => cases hk
  | cut => exact absurd rfl hkcut
  | broke =>
    obtain rfl := Option.some.inj hk
    exact mem_unique.mpr (List.mem_cons_of_mem _ hmem)
  | threw =>
    obtain rfl := Option.some.inj hk
    exact hmem

/-- After a round that goes on, the test is next. -/
theorem Admits.mem_flows_again {t : List Mark} {k : Completion} (h : body.Admits t k)
    (hk : k.outOfLoop? = none) {m : Mark} {x : Label}
    (hm : ([Mark.point test] ++ t).getLast? = some m) (hx : m.source? = some x) :
    (x, test) ∈ (loop test body).flows := by
  rcases hi : body.initial with - | entry
  · obtain ⟨rfl, -⟩ := h.eq_nil hi
    obtain rfl := Option.some.inj hm
    obtain rfl := Option.some.inj hx
    rw [loop_of_none _ hi]
    exact List.mem_singleton_self _
  have hm := h.getLast?_of_append hi hm
  rw [loop_of_some test hi]
  refine List.mem_append_right _ (List.mem_map_of_mem (mem_unique.mpr ?_))
  cases k with
  | normal => exact List.mem_append_left _ (h.mem_exits (h.mem_lasts (by decide) hm hx))
  | continued => exact List.mem_append_right _ (h.mem_lasts (by decide) hm hx)
  | broke | threw | cut => cases hk

theorem Carries.loop {b : Behaviour Mark} (h : body.Carries b) (test : Label) (P Q : Prop) :
    (loop test body).Carries (Loop (single (.point test) [.normal]) P Q b) := by
  intro t k hloop
  have hexit : (Fragment.loop test body).reachesExit = true := reachesExit_loop test body
  have hinitial : (Fragment.loop test body).initial = some test := initial_loop test body
  have hbegins : some (Mark.point test) = (Fragment.loop test body).initial.map .point := by
    rw [hinitial]
    rfl
  have hnonempty : ∀ {t : List Mark} {k : Completion}, Mark.point test :: t = [] → k = .normal :=
    fun h => absurd h (List.cons_ne_nil _ _)
  -- what is admitted of the rounds that follow is admitted with one more round before them
  induction hloop with
  | stop htest hk =>
    obtain ⟨rfl, hmem⟩ := htest
    obtain rfl := hmem.resolve_right fun hmem => hk (List.mem_singleton.mp hmem)
    exact admits_cut hinitial rfl (List.isChain_singleton _)
  | done htest _ =>
    obtain ⟨rfl, -⟩ := htest
    refine ⟨hbegins, hnonempty, List.isChain_singleton _, ?_, fun _ => hexit⟩
    · intro _ m hm
      obtain rfl := Option.some.inj hm
      refine ⟨test, rfl, ?_⟩
      show test ∈ (Fragment.loop test body).finals
      rw [Fragment.loop]
      split
      · exact List.mem_singleton_self test
      · exact mem_unique.mpr List.mem_cons_self
  | @leave t₀ t₁ j j' htest _ hbody hj =>
    obtain ⟨rfl, -⟩ := htest
    have ha := h t₁ j hbody
    refine ⟨hbegins, hnonempty, ha.linked_round, ?_, fun _ => hexit⟩
    · intro hcut m hm
      rcases getLast?_append_eq_some.mp hm with hm | ⟨rfl, -⟩
      · exact ha.mem_lasts_loop hj hcut hm
      · -- a round without marks ends normally and does not leave the loop
        rw [ha.silent rfl] at hj
        cases hj
  | @again t₀ t₁ t₂ j j' htest _ hbody hj _ ih =>
    obtain ⟨rfl, -⟩ := htest
    have ha := h t₁ j hbody
    refine ⟨hbegins, hnonempty, linked_append ha.linked_round ih.linked ?_, ?_, fun _ => hexit⟩
    · intro m x y hm hx hy
      obtain rfl : test = y := Option.some.inj (hinitial.symm.trans (ih.initial_of_head? hy))
      exact ha.mem_flows_again hj hm hx
    · intro hcut m hm
      exact ih.leaves hcut m (ih.getLast?_of_append hinitial hm)

end Loop

/-! ### Guarded blocks -/

section Guarded

variable {block handler finalizer : Fragment} {b c d e : Behaviour Mark}

/-- A guarded block in which something runs, with nothing on the way out, can end normally as soon
as it has last labels. -/
theorem admits_open {t : List Mark} {k : Completion} {entry : Label}
    (hi : block.initial = some entry) (hbegins : t.head? = some (.point entry))
    (hlinked : t.IsChain (Mark.Linked (block.flows ++ handled block handler)))
    (hleaves : k ≠ .cut → ∀ m, t.getLast? = some m → ∃ x, m.source? = some x ∧
      x ∈ (guarded block handler .empty).lasts k) : (guarded block handler .empty).Admits t k where
  begins := by
    rw [initial_guarded, hi]
    exact hbegins
  silent := by
    rintro rfl
    cases hbegins
  linked := by
    rw [guarded_open handler hi rfl]
    exact hlinked
  leaves := hleaves
  completes := by
    rintro rfl
    rcases hm : t.getLast? with - | m
    · rw [List.getLast?_eq_none_iff.mp hm] at hbegins
      cases hbegins
    · obtain ⟨x, -, hx⟩ := hleaves (by decide) m hm
      rw [guarded_open handler hi rfl] at hx ⊢
      have hne : guardExits block handler ≠ [] := List.ne_nil_of_mem hx
      simpa using hne

/-- A block that is not left by an exception. -/
theorem Admits.guarded_block {t : List Mark} {k : Completion} (h : block.Admits t k)
    (hk : k ≠ .threw) {entry : Label} (hi : block.initial = some entry) :
    (guarded block handler .empty).Admits t k := by
  refine admits_open hi (h.head? hi) (linked_mono h.linked (List.subset_append_left _ _)) ?_
  intro hcut m hm
  obtain ⟨x, hx, hmem⟩ := h.leaves hcut m hm
  refine ⟨x, hx, ?_⟩
  rw [guarded_open handler hi rfl]
  cases k with
  | normal => exact mem_unique.mpr (List.mem_append_left _ (h.mem_exits hmem))
  | broke | continued => exact List.mem_append_left _ (List.mem_append_left _ hmem)
  | threw => exact absurd rfl hk
  | cut => exact absurd rfl hcut

/-- A block that is left by an exception, with a handler in which something runs. -/
theorem Admits.guarded_handler {t₁ t₂ : List Mark} {k : Completion} (h₁ : block.Admits t₁ .threw)
    (h₂ : handler.Admits t₂ k) {entry first : Label} (hi : block.initial = some entry)
    (hfirst : handler.initial = some first) :
    (guarded block handler .empty).Admits (t₁ ++ t₂) k := by
  have hhandled : handled block handler = block.sources.map (·, first) ++ handler.flows := by
    rw [handled, hfirst]
  refine admits_open hi ?_ ?_ ?_
  · rw [List.head?_append, h₁.head? hi]
    rfl
  · rw [hhandled]
    refine linked_append (linked_mono h₁.linked (List.subset_append_left _ _))
      (linked_mono h₂.linked ?_) ?_
    · intro e he
      exact List.mem_append_right _ (List.mem_append_right _ he)
    · intro m x y hm hx hy
      have hsource : x ∈ block.sources := raises_subset_sources (h₁.mem_lasts (by decide) hm hx)
      obtain rfl : first = y := Option.some.inj (hfirst.symm.trans (h₂.initial_of_head? hy))
      exact List.mem_append_right _ (List.mem_append_left _ (List.mem_map_of_mem hsource))
  · intro hcut m hm
    have hm := h₂.getLast?_of_append hfirst hm
    obtain ⟨x, hx, hmem⟩ := h₂.leaves hcut m hm
    refine ⟨x, hx, ?_⟩
    rw [guarded_open handler hi rfl]
    cases k with
    | normal =>
      refine mem_unique.mpr (List.mem_append_right _ ?_)
      rw [if_neg (isEmpty_ne_true hfirst)]
      exact h₂.mem_exits hmem
    | broke | continued => exact List.mem_append_left _ (List.mem_append_right _ hmem)
    | threw => exact hmem
    | cut => exact absurd rfl hcut

/-- A block that is left by an exception, with a handler in which nothing runs. -/
theorem Admits.guarded_handled {t : List Mark} (h : block.Admits t .threw) {entry : Label}
    (hi : block.initial = some entry) (hnone : handler.initial = none) :
    (guarded block handler .empty).Admits t .normal := by
  refine admits_open hi (h.head? hi) (linked_mono h.linked (List.subset_append_left _ _)) ?_
  intro _ m hm
  obtain ⟨x, hx, hmem⟩ := h.leaves (by decide) m hm
  refine ⟨x, hx, ?_⟩
  rw [guarded_open handler hi rfl]
  refine mem_unique.mpr (List.mem_append_right _ ?_)
  rw [if_pos (isEmpty_iff.mpr hnone)]
  exact raises_subset_sources hmem

theorem Carries.caught (hb : block.Carries b) (hh : handler.Carries c) :
    (guarded block handler .empty).Carries (b.caught c) := by
  rcases hi : block.initial with - | entry
  · -- nothing is raised where nothing runs
    rw [guarded_of_empty _ _ hi]
    rintro t k (⟨h, -⟩ | ⟨t₁, t₂, rfl, h₁, h₂⟩)
    · obtain ⟨rfl, rfl⟩ := (hb t k h).eq_nil hi
      exact carries_empty [] .normal ⟨rfl, rfl⟩
    · cases ((hb t₁ .threw h₁).eq_nil hi).2
  rintro t k (⟨h, hk⟩ | ⟨t₁, t₂, rfl, h₁, h₂⟩)
  · exact (hb t k h).guarded_block hk hi
  rcases hfirst : handler.initial with - | first
  · obtain ⟨rfl, rfl⟩ := (hh t₂ k h₂).eq_nil hfirst
    rw [List.append_nil]
    exact (hb t₁ .threw h₁).guarded_handled hi hfirst
  · exact (hb t₁ .threw h₁).guarded_handler (hh t₂ k h₂) hi hfirst

/-! ### What is run on the way out -/

theorem linked_entering {flows : List Flow} {t : List Mark} (h : t.IsChain (Mark.Linked flows))
    (k : Completion) : (t ++ k.entering).IsChain (Mark.Linked flows) := by
  refine linked_append h (by cases k <;> simp [Completion.entering]) ?_
  intro m x y _ _ hy
  cases k <;> cases hy

/-- A jump that is held up goes on from the label where it was made. -/
theorem leaving_eq {t : List Mark} {k : Completion} {m : Mark} {l : Label} (hk : k ≠ .normal)
    (hm : t.getLast? = some m) (hl : m.source? = some l) : k.leaving t = [.resumed l] := by
  cases k with
  | normal => exact absurd rfl hk
  | broke | continued | threw | cut =>
    rw [Completion.leaving, hm, Option.bind_some, hl]
    rfl

theorem initial_open {entry : Label} (hi : block.initial = some entry)
    (handler finalizer : Fragment) :
    (guarded block handler finalizer).initial = some entry := by
  rw [initial_guarded, hi]
  rfl

theorem flows_open_subset {entry : Label} (hi : block.initial = some entry)
    (finalizer : Fragment) :
    (guarded block handler .empty).flows ⊆ (guarded block handler finalizer).flows := by
  rw [guarded_open handler hi rfl]
  exact flows_subset_guarded (Option.ne_none_iff_exists'.mpr ⟨entry, hi⟩)

/-- Jumps of a block and its handler leave the whole. -/
theorem lasts_open_subset {entry : Label} (hi : block.initial = some entry) {k : Completion}
    (hk : k ≠ .normal) :
    (guarded block handler .empty).lasts k ⊆ (guarded block handler finalizer).lasts k := by
  intro x hx
  rw [guarded_open handler hi rfl] at hx
  rcases hlast : finalizer.initial with - | last
  · rw [guarded_open handler hi hlast]
    cases k with
    | normal => exact absurd rfl hk
    | broke | continued => exact List.mem_append_left _ (by simpa [lasts, empty] using hx)
    | threw => exact hx
    | cut => cases hx
  · rw [guarded_closed handler hi hlast]
    cases k with
    | normal => exact absurd rfl hk
    | broke | continued => exact List.mem_append_left _ (by simpa [lasts, empty] using hx)
    | threw => exact mem_unique.mpr (List.mem_append_left _ hx)
    | cut => cases hx

/-- The way out is entered along an edge, unless a `break` or a `continue` is held up. -/
theorem Admits.linked_wayOut {t₁ t₂ : List Mark} {k₁ k₂ : Completion} {entry : Label}
    (h₁ : (guarded block handler .empty).Admits t₁ k₁) (hk₁ : k₁ ≠ .cut)
    (h₂ : finalizer.Admits t₂ k₂) (hi : block.initial = some entry) :
    (t₁ ++ k₁.entering ++ t₂).IsChain (Mark.Linked (guarded block handler finalizer).flows) := by
  have hbefore := linked_entering (linked_mono h₁.linked (flows_open_subset hi finalizer)) k₁
  rcases hlast : finalizer.initial with - | last
  · obtain ⟨rfl, -⟩ := h₂.eq_nil hlast
    rw [List.append_nil]
    exact hbefore
  -- normal ends and exceptions of the handler have an edge to the first label on the way out
  have hedges : ∀ x, x ∈ guardExits block handler ∨ x ∈ handler.raises →
      (x, last) ∈ (guarded block handler finalizer).flows := by
    intro x hx
    rw [guarded_closed handler hi hlast]
    refine List.mem_append_left _ (List.mem_append_right _ (List.mem_map_of_mem ?_))
    exact mem_unique.mpr (List.mem_append.mpr hx)
  refine linked_append hbefore (linked_mono h₂.linked ?_) ?_
  · rw [guarded_closed handler hi hlast]
    exact List.subset_append_right _ _
  · intro m x y hm hx hy
    obtain rfl : last = y := Option.some.inj (hlast.symm.trans (h₂.initial_of_head? hy))
    apply hedges
    cases k₁ with
    | normal =>
      rw [Completion.entering, List.append_nil] at hm
      have hmem := h₁.mem_lasts (by decide) hm hx
      rw [guarded_open handler hi rfl] at hmem
      exact Or.inl hmem
    | threw =>
      rw [Completion.entering, List.append_nil] at hm
      have hmem := h₁.mem_lasts (by decide) hm hx
      rw [guarded_open handler hi rfl] at hmem
      exact Or.inr hmem
    | broke | continued =>
      -- the jump is held up, and nothing is claimed of where it goes
      rw [Completion.entering, List.getLast?_concat] at hm
      obtain rfl := Option.some.inj hm
      cases hx
    | cut => exact absurd rfl hk₁

/-- Everything ends normally. -/
theorem Admits.wayOut_normal {t₁ t₂ : List Mark} {entry : Label}
    (h₁ : (guarded block handler .empty).Admits t₁ .normal) (h₂ : finalizer.Admits t₂ .normal)
    (hi : block.initial = some entry) :
    (guarded block handler finalizer).Admits (t₁ ++ t₂) .normal := by
  have hinner := initial_open hi handler .empty
  have hexits : guardExits block handler ≠ [] := by
    obtain ⟨-, x, -, -, hx⟩ := h₁.exists_last hinner (by decide)
    rw [guarded_open handler hi rfl] at hx
    exact List.ne_nil_of_mem hx
  constructor
  case begins =>
    rw [List.head?_append, h₁.head? hinner, initial_open hi]
    rfl
  case silent => exact fun _ => rfl
  case linked =>
    have hlinked := h₁.linked_wayOut (by decide) h₂ hi
    rw [Completion.entering, List.append_nil] at hlinked
    exact hlinked
  case leaves =>
    intro _ m hm
    -- the last labels are those of the way out, if something runs there
    rcases hlast : finalizer.initial with - | last
    · obtain ⟨rfl, -⟩ := h₂.eq_nil hlast
      rw [List.append_nil] at hm
      obtain ⟨x, hx, hmem⟩ := h₁.leaves (by decide) m hm
      rw [guarded_open handler hi rfl] at hmem
      rw [guarded_open handler hi hlast]
      exact ⟨x, hx, hmem⟩
    · have hm := h₂.getLast?_of_append hlast hm
      obtain ⟨x, hx, hmem⟩ := h₂.leaves (by decide) m hm
      refine ⟨x, hx, ?_⟩
      rw [guarded_closed handler hi hlast]
      show x ∈ if _ then finalizer.finals else []
      rw [if_pos (by simpa [h₂.completes rfl] using hexits)]
      exact hmem
  case completes =>
    intro _
    exact reachesExit_guarded (Option.ne_none_iff_exists'.mpr ⟨entry, hi⟩) hexits
      (h₂.completes rfl)

/-- The way out ends normally, and the jump that was pending goes on. -/
theorem Admits.wayOut_resumed {t₁ t₂ : List Mark} {k₁ : Completion} {entry : Label}
    (h₁ : (guarded block handler .empty).Admits t₁ k₁) (hcut : k₁ ≠ .cut) (hk₁ : k₁ ≠ .normal)
    (h₂ : finalizer.Admits t₂ .normal) (hi : block.initial = some entry) :
    (guarded block handler finalizer).Admits (t₁ ++ k₁.entering ++ t₂ ++ k₁.leaving t₁) k₁ := by
  have hinner := initial_open hi handler .empty
  -- the last mark is now the one of the jump, and that jump leaves the whole
  obtain ⟨m, l, hm, hl, hmem⟩ := h₁.exists_last hinner hcut
  rw [leaving_eq hk₁ hm hl]
  constructor
  case begins =>
    rw [List.append_assoc, List.append_assoc, List.head?_append, h₁.head? hinner, initial_open hi]
    rfl
  case silent => exact fun h => absurd (List.append_eq_nil_iff.mp h).2 (List.cons_ne_nil _ _)
  case linked =>
    refine linked_append (h₁.linked_wayOut hcut h₂ hi) (List.isChain_singleton _) ?_
    intro m x y _ _ hy
    cases hy
  case leaves =>
    intro _ m' hm'
    rw [List.getLast?_concat] at hm'
    obtain rfl := Option.some.inj hm'
    exact ⟨l, rfl, lasts_open_subset hi hk₁ hmem⟩
  case completes => exact fun h => absurd h hk₁

/-- The way out ends in another way, and what was pending is forgotten. -/
theorem Admits.wayOut_overridden {t₁ t₂ : List Mark} {k₁ k₂ : Completion} {entry : Label}
    (h₁ : (guarded block handler .empty).Admits t₁ k₁) (hcut : k₁ ≠ .cut)
    (h₂ : finalizer.Admits t₂ k₂) (hk₂ : k₂ ≠ .normal) (hi : block.initial = some entry) :
    (guarded block handler finalizer).Admits (t₁ ++ k₁.entering ++ t₂) k₂ := by
  have hinner := initial_open hi handler .empty
  rcases hlast : finalizer.initial with - | last
  · -- a way out on which nothing runs ends normally
    exact absurd (h₂.eq_nil hlast).2 hk₂
  constructor
  case begins =>
    rw [List.append_assoc, List.head?_append, h₁.head? hinner, initial_open hi]
    rfl
  case silent => exact fun h => h₂.silent (List.append_eq_nil_iff.mp h).2
  case linked => exact h₁.linked_wayOut hcut h₂ hi
  case leaves =>
    intro hcut m hm
    have hm := h₂.getLast?_of_append hlast hm
    obtain ⟨x, hx, hmem⟩ := h₂.leaves hcut m hm
    refine ⟨x, hx, ?_⟩
    rw [guarded_closed handler hi hlast]
    cases k₂ with
    | normal => exact absurd rfl hk₂
    | broke | continued => exact List.mem_append_right _ hmem
    | threw => exact mem_unique.mpr (List.mem_append_right _ hmem)
    | cut => exact absurd rfl hcut
  case completes => exact fun h => absurd h hk₂

theorem Carries.routed (hd : (guarded block handler .empty).Carries d)
    (he : finalizer.Carries e) : (guarded block handler finalizer).Carries (Routed d e) := by
  intro t k h
  rcases hi : block.initial with - | entry
  · -- nothing is pending where nothing runs
    have hnone : ∀ t k, d t k → t = [] ∧ k = .normal := by
      intro t k h
      refine (hd t k h).eq_nil ?_
      rw [guarded_of_empty _ _ hi]
      rfl
    rw [guarded_of_empty _ _ hi]
    cases h with
    | cut h => cases (hnone _ _ h).2
    | resumes h₁ _ h₂ =>
      obtain ⟨rfl, rfl⟩ := hnone _ _ h₁
      rw [Completion.entering, Completion.leaving, List.append_nil]
      exact he _ _ h₂
    | overrides h₁ _ h₂ _ =>
      obtain ⟨rfl, rfl⟩ := hnone _ _ h₁
      exact he _ _ h₂
  · cases h with
    | cut h =>
      have ha := hd _ _ h
      exact Fragment.admits_cut (initial_open hi handler finalizer)
        (ha.head? (initial_open hi handler .empty))
        (linked_mono ha.linked (flows_open_subset hi finalizer))
    | resumes h₁ hcut h₂ =>
      by_cases hk₁ : k = .normal
      · subst hk₁
        rw [Completion.entering, Completion.leaving, List.append_nil, List.append_nil]
        exact (hd _ _ h₁).wayOut_normal (he _ _ h₂) hi
      · exact (hd _ _ h₁).wayOut_resumed hcut hk₁ (he _ _ h₂) hi
    | overrides h₁ hcut h₂ hk₂ => exact (hd _ _ h₁).wayOut_overridden hcut (he _ _ h₂) hk₂ hi

end Guarded

end Fragment

/-! ### Statements and blocks -/

theorem Stmt.carries_of_blocks (s : Stmt) (ih : ∀ b ∈ s.blocks, b.fragment.Carries b.trails) :
    s.fragment.Carries s.trails := by
  rcases s with _ | _ | ⟨offset, test, body⟩ | ⟨offset, test, consequent, _ | alternate, folded⟩ |
    _ | _ | _ | ⟨offset, block, handler, _ | finalizer, param⟩ | b | ⟨offset, tag⟩
  case whileStmt =>
    rw [Stmt.fragment, Stmt.trails]
    split
    next ht =>
      rw [loop_of_not (fun h => h ht) (by rw [ht]; decide)]
      exact Fragment.carries_single rfl (List.mem_singleton_self _) fun _ => rfl
    next => exact (ih body (by simp [blocks])).loop _ _ _
  case ifStmt.none =>
    have hc := ih consequent (by simp [blocks])
    rw [Stmt.fragment, Stmt.trails]
    refine Fragment.carries_choice _ _ ?_
    rintro t k (⟨hd, h⟩ | ⟨-, rfl, rfl⟩)
    · refine Or.inl ⟨consequent.fragment, ?_, hc t k h⟩
      split
      next hf => exact absurd hf hd
      next => exact List.mem_singleton_self _
    · exact Or.inr ⟨rfl, rfl, rfl⟩
  case ifStmt.some =>
    have hc := ih consequent (by simp [blocks])
    have ha := ih alternate (by simp [blocks])
    rw [Stmt.fragment, Stmt.trails]
    refine Fragment.carries_choice _ _ ?_
    rintro t k (⟨hd, h⟩ | ⟨hd, h⟩)
    · refine Or.inl ⟨consequent.fragment, ?_, hc t k h⟩
      split
      next => exact List.mem_singleton_self _
      next hf => exact absurd hf hd
      next => exact List.mem_cons_self
    · refine Or.inl ⟨alternate.fragment, ?_, ha t k h⟩
      split
      next ht => exact absurd ht hd
      next => exact List.mem_singleton_self _
      next => exact List.mem_cons_of_mem _ (List.mem_singleton_self _)
  case tryStmt.none =>
    rw [Stmt.fragment, Stmt.trails]
    exact (ih block (by simp [blocks])).caught (ih handler (by simp [blocks]))
  case tryStmt.some =>
    rw [Stmt.fragment, Stmt.trails]
    exact ((ih block (by simp [blocks])).caught (ih handler (by simp [blocks]))).routed
      (ih finalizer (by simp [blocks]))
  case blockStmt =>
    rw [Stmt.fragment, Stmt.trails]
    exact ih b (by simp [blocks])
  case unsupported =>
    rw [Stmt.fragment, Stmt.trails]
    exact Fragment.carries_empty
  case exprStmt | declStmt =>
    rw [Stmt.fragment, Stmt.trails]
    exact Fragment.carries_single rfl (List.mem_singleton_self _) fun _ => rfl
  -- the other statements are jumps, which never end normally
  all_goals
    rw [Stmt.fragment, Stmt.trails]
    exact Fragment.carries_single rfl (List.mem_singleton_self _) fun h => absurd h (by decide)

theorem Stmt.carries_sequence {ss : List Stmt} {f : Fragment} {b : Behaviour Mark}
    (hf : f.Carries b) (hss : ∀ s ∈ ss, s.fragment.Carries s.trails) :
    (Stmt.sequence f ss).Carries (b.andThen (Stmt.trailsFrom ss)) := by
  induction ss generalizing f b with
  | nil =>
    rw [Stmt.sequence, Stmt.trailsFrom, andThen_idle]
    exact hf
  | cons s rest ih =>
    rw [Stmt.sequence, Stmt.trailsFrom]
    split
    next =>
      rw [← andThen_assoc]
      exact ih (hf.andThen (hss s List.mem_cons_self) s.offset) fun r hr =>
        hss r (List.mem_cons_of_mem s hr)
    next hr =>
      -- what came before never ends normally, so the rest is not gone on to
      have hends : ¬ b.Ends .normal := by
        rintro ⟨t, ht⟩
        exact hr ((hf t .normal ht).completes rfl)
      rw [andThen_of_not_ends hends]
      exact hf

theorem Block.carries_of_body (b : Block) (ih : ∀ s ∈ b.body, s.fragment.Carries s.trails) :
    b.fragment.Carries b.trails := by
  obtain ⟨offset, body⟩ := b
  have h := Stmt.carries_sequence Fragment.carries_empty ih
  rw [idle_andThen] at h
  rw [Block.fragment, Block.trails]
  exact h

/-- The fragment of a program carries its trails. -/
theorem Program.carries (p : Program) : p.block.fragment.Carries p.trails :=
  Block.of_body Stmt.carries_of_blocks Block.carries_of_body p.block

/-- **Trails go along the edges.**  Every run of a program in which only `throw` raises has a trail
with the same labels.  On every trail there is an edge from a label to one that is executed right
after it, unless a `break` or a `continue` is held up in between or something held up goes on.  If
the last that happens before a label is that a jump goes on, there is an edge from the label of
that jump.  Nothing is said about a label before which a `break` or a `continue` is held up last,
whether it was made there or goes on from an inner way out. -/
theorem Program.trails_along_edges (p : Program) :
    (∀ t k, p.runs (.strict false) t k →
      ∃ trail, p.trails trail k ∧ trail.filterMap Mark.label? = t.map (·.label)) ∧
    ∀ trail k, p.trails trail k → ∀ x y,
      [.point x, .point y] <:+: trail ∨ [.resumed x, .point y] <:+: trail →
      (x, y) ∈ p.graph.flows := by
  refine ⟨p.traced, ?_⟩
  intro trail k h x y hxy
  have hlinked := (p.carries trail k h).linked
  rcases hxy with hxy | hxy
  · have hpair := List.IsChain.infix hlinked hxy
    exact List.isChain_pair.mp hpair x y rfl rfl
  · have hpair := List.IsChain.infix hlinked hxy
    exact List.isChain_pair.mp hpair x y rfl rfl

/-- `while (more) { try { try { if (bad) break; throw a; } catch (e) { throw b; }
finally { log(); } } catch (e) { warn(); } } done();` -/
def rerouted : Program where
  offset := 0
  body :=
    [.whileStmt 0 (.identifier 7 "more") ⟨13,
      [.tryStmt 15
        ⟨19, [.tryStmt 21
          ⟨25, [.ifStmt 27 (.identifier 31 "bad") ⟨36, [.breakStmt 36 .null]⟩ none false,
            .throwStmt 43 (some (.identifier 49 "a"))]⟩
          ⟨64, [.throwStmt 66 (some (.identifier 72 "b"))]⟩
          (some ⟨85, [.exprStmt 87 (.call 87 (.identifier 87 "log") [])]⟩) (.str "e")]⟩
        ⟨108, [.exprStmt 110 (.call 110 (.identifier 110 "warn") [])]⟩ none (.str "e")]⟩,
      .exprStmt 122 (.call 122 (.identifier 122 "done") [])]

/-- The `break` is held up by the call of `log` and goes on from where it was made. -/
theorem rerouted_break_resumed :
    rerouted.trails [.point 7, .point 31, .point 36, .detour, .point 87, .resumed 36, .point 122]
      .normal ∧
    (7, 31) ∈ rerouted.graph.flows ∧ (31, 36) ∈ rerouted.graph.flows ∧
    (36, 122) ∈ rerouted.graph.flows := by
  have htrail : rerouted.trails
      [.point 7, .point 31, .point 36, .detour, .point 87, .resumed 36, .point 122] .normal := by
    refine Or.inr ⟨[_, _, _, _, _, _], [_], rfl, ?_, Or.inr ⟨[_], [], rfl, ?_, rfl, rfl⟩⟩
    · -- the first round of the loop breaks, through both `try` statements
      show Loop _ _ _ _ ([_] ++ [_, _, _, _, _]) _
      refine .leave (k := .broke) ⟨rfl, Or.inr (by decide)⟩ (by decide) ?_ rfl
      refine Or.inl ⟨Or.inl ⟨Or.inl ⟨?_, by decide⟩, by decide⟩, by decide⟩
      -- in the inner one the jump waits for the call of `log`
      show Routed _ _ ([.point 31, .point 36] ++ Completion.entering .broke ++ [.point 87] ++
        Completion.leaving [.point 31, .point 36] .broke) .broke
      refine .resumes (Or.inl ⟨Or.inl ⟨?_, by decide⟩, by decide⟩) (by decide) ?_
      · refine Or.inr ⟨[_], [_], rfl, ⟨rfl, Or.inr (by decide)⟩, Or.inl ⟨by decide, ?_⟩⟩
        exact Or.inl ⟨⟨rfl, Or.inr (by decide)⟩, by decide⟩
      · exact Or.inr ⟨[_], [], rfl, ⟨rfl, Or.inr (by decide)⟩, rfl, rfl⟩
    · exact ⟨rfl, Or.inr (by decide)⟩
  have hedges := (Program.trails_along_edges rerouted).2 _ _ htrail
  refine ⟨htrail, hedges 7 31 (Or.inl ?_), hedges 31 36 (Or.inl ?_), hedges 36 122 (Or.inr ?_)⟩
  · decide
  · decide
  · decide

/-- Where the inner `try` of the program stands. -/
def rerouted.inner : List Step :=
  [.child "body", .item 0, .child "body", .child "body", .item 0, .child "block", .child "body",
    .item 0]

/-- One run breaks, and `log` is called before the loop is left. -/
theorem rerouted_breaks :
    ∃ t, rerouted.runs (.strict false) t .normal ∧ t.map (·.label) = [7, 31, 36, 87, 122] := by
  refine ⟨[⟨[.child "body", .item 0], 7⟩,
    ⟨rerouted.inner ++ [.child "block", .child "body", .item 0], 31⟩,
    ⟨rerouted.inner ++ [.child "block", .child "body", .item 0, .child "consequent",
      .child "body", .item 0], 36⟩,
    ⟨rerouted.inner ++ [.child "finalizer", .child "body", .item 0], 87⟩,
    ⟨[.child "body", .item 1], 122⟩], ?_, rfl⟩
  refine Or.inr ⟨[_, _, _, _], [_], rfl, ?_, Or.inr ⟨[_], [], rfl, ?_, rfl, rfl⟩⟩
  · show Loop _ _ _ _ ([_] ++ [_, _, _]) _
    refine .leave (k := .broke) ⟨rfl, Or.inr (by decide)⟩ (by decide) ?_ rfl
    refine Or.inl ⟨Or.inl ⟨Or.inl ⟨?_, by decide⟩, by decide⟩, by decide⟩
    refine Or.inr ⟨[_, _], .broke, [_], .normal, rfl, ?_, by decide, ?_, rfl⟩
    · refine Or.inl ⟨Or.inl ⟨?_, by decide⟩, by decide⟩
      refine Or.inr ⟨[_], [_], rfl, ⟨rfl, Or.inr (by decide)⟩, Or.inl ⟨by decide, ?_⟩⟩
      exact Or.inl ⟨⟨rfl, Or.inr (by decide)⟩, by decide⟩
    · exact Or.inr ⟨[_], [], rfl, ⟨rfl, Or.inr (by decide)⟩, rfl, rfl⟩
  · exact ⟨rfl, Or.inr (by decide)⟩

/-- One run throws twice, and `log` is called before the outer handler is entered. -/
theorem rerouted_throws :
    ∃ t, rerouted.runs (.strict false) t .cut ∧ t.map (·.label) = [7, 31, 43, 66, 87, 110] := by
  refine ⟨[⟨[.child "body", .item 0], 7⟩,
    ⟨rerouted.inner ++ [.child "block", .child "body", .item 0], 31⟩,
    ⟨rerouted.inner ++ [.child "block", .child "body", .item 1], 43⟩,
    ⟨rerouted.inner ++ [.child "handler", .child "body", .item 0], 66⟩,
    ⟨rerouted.inner ++ [.child "finalizer", .child "body", .item 0], 87⟩,
    ⟨[.child "body", .item 0, .child "body", .child "body", .item 0, .child "handler",
      .child "body", .item 0], 110⟩], ?_, rfl⟩
  -- the first round is watched up to the outer handler
  refine Or.inl ⟨?_, by decide⟩
  show Loop _ _ _ _ ([_] ++ [_, _, _, _, _]) _
  refine .leave (k := .cut) ⟨rfl, Or.inr (by decide)⟩ (by decide) ?_ rfl
  refine Or.inl ⟨Or.inr ⟨[_, _, _, _], [_], rfl, Or.inl ⟨?_, by decide⟩, ?_⟩, by decide⟩
  · -- the inner handler throws again, and `log` is called before that goes on
    refine Or.inr ⟨[_, _, _], .threw, [_], .normal, rfl, ?_, by decide, ?_, rfl⟩
    · refine Or.inr ⟨[_, _], [_], rfl, ?_, Or.inl ⟨⟨rfl, Or.inr (by decide)⟩, by decide⟩⟩
      refine Or.inr ⟨[_], [_], rfl, ?_, Or.inl ⟨⟨rfl, Or.inr (by decide)⟩, by decide⟩⟩
      exact Or.inr ⟨[_], [], rfl, ⟨rfl, Or.inr (by decide)⟩,
        Or.inr ⟨Or.inr (by decide), rfl, rfl⟩⟩
    · exact Or.inr ⟨[_], [], rfl, ⟨rfl, Or.inr (by decide)⟩, rfl, rfl⟩
  · exact Or.inl ⟨⟨rfl, Or.inl rfl⟩, by decide⟩

/-- `while (c) { try { try { break; } catch (e) { break; } finally { log(); } }
catch (e) { warn(); } finally { close(); } } done();` -/
def reroutedTwice : Program where
  offset := 0
  body :=
    [.whileStmt 0 (.identifier 7 "c") ⟨10,
      [.tryStmt 12
        ⟨16, [.tryStmt 18 ⟨22, [.breakStmt 24 .null]⟩ ⟨43, [.breakStmt 45 .null]⟩
          (some ⟨62, [.exprStmt 64 (.call 64 (.identifier 64 "log") [])]⟩) (.str "e")]⟩
        ⟨85, [.exprStmt 87 (.call 87 (.identifier 87 "warn") [])]⟩
        (some ⟨105, [.exprStmt 107 (.call 107 (.identifier 107 "close") [])]⟩) (.str "e")]⟩,
      .exprStmt 120 (.call 120 (.identifier 120 "done") [])]

/-- Where the outer `try` of that program stands. -/
def reroutedTwice.outer : List Step :=
  [.child "body", .item 0, .child "body", .child "body", .item 0]

/-- The `break` is held up by the call of `log`, goes on, and is held up by the call of `close`. -/
theorem reroutedTwice_breaks :
    ∃ t, reroutedTwice.runs (.strict false) t .normal ∧
      t.map (·.label) = [7, 24, 64, 107, 120] := by
  refine ⟨[⟨[.child "body", .item 0], 7⟩,
    ⟨reroutedTwice.outer ++ [.child "block", .child "body", .item 0, .child "block",
      .child "body", .item 0], 24⟩,
    ⟨reroutedTwice.outer ++ [.child "block", .child "body", .item 0, .child "finalizer",
      .child "body", .item 0], 64⟩,
    ⟨reroutedTwice.outer ++ [.child "finalizer", .child "body", .item 0], 107⟩,
    ⟨[.child "body", .item 1], 120⟩], ?_, rfl⟩
  refine Or.inr ⟨[_, _, _, _], [_], rfl, ?_, Or.inr ⟨[_], [], rfl, ?_, rfl, rfl⟩⟩
  · show Loop _ _ _ _ ([_] ++ [_, _, _]) _
    refine .leave (k := .broke) ⟨rfl, Or.inr (by decide)⟩ (by decide) ?_ rfl
    refine Or.inl ⟨?_, by decide⟩
    -- the outer way out is entered when the inner one has given way
    refine Or.inr ⟨[_, _], .broke, [_], .normal, rfl, ?_, by decide, ?_, rfl⟩
    · refine Or.inl ⟨Or.inl ⟨?_, by decide⟩, by decide⟩
      refine Or.inr ⟨[_], .broke, [_], .normal, rfl, ?_, by decide, ?_, rfl⟩
      · exact Or.inl ⟨Or.inl ⟨⟨rfl, Or.inr (by decide)⟩, by decide⟩, by decide⟩
      · exact Or.inr ⟨[_], [], rfl, ⟨rfl, Or.inr (by decide)⟩, rfl, rfl⟩
    · exact Or.inr ⟨[_], [], rfl, ⟨rfl, Or.inr (by decide)⟩, rfl, rfl⟩
  · exact ⟨rfl, Or.inr (by decide)⟩

/-- In the first program there is no edge from the `break` to the call of `log` that holds it up,
and none from that call to where the `break` or the exception goes on.  In the second one there is
no edge to the call of `close` from either the call before it or the `break` that it holds up. -/
theorem rerouted_edges_missing :
    (∃ t, rerouted.runs (.strict false) t .normal ∧ t.map (·.label) = [7, 31, 36, 87, 122]) ∧
    (36, 87) ∉ rerouted.graph.flows ∧ (87, 122) ∉ rerouted.graph.flows ∧
    (∃ t, rerouted.runs (.strict false) t .cut ∧ t.map (·.label) = [7, 31, 43, 66, 87, 110]) ∧
    (87, 110) ∉ rerouted.graph.flows ∧
    (∃ t, reroutedTwice.runs (.strict false) t .normal ∧
      t.map (·.label) = [7, 24, 64, 107, 120]) ∧
    (64, 107) ∉ reroutedTwice.graph.flows ∧ (24, 107) ∉ reroutedTwice.graph.flows := by
  have hflows : rerouted.graph.flows = [(7, 31), (31, 36), (31, 43), (31, 66), (43, 66), (66, 87),
      (31, 110), (66, 110), (110, 7), (7, 122), (36, 122)] := by decide +kernel
  have htwice : reroutedTwice.graph.flows = [(7, 24), (24, 45), (24, 87), (87, 107), (107, 7),
      (7, 120), (24, 120), (45, 120)] := by decide +kernel
  rw [hflows, htwice]
  exact ⟨rerouted_breaks, by decide, by decide, rerouted_throws, by decide, reroutedTwice_breaks,
    by decide, by decide⟩

end Liveness
