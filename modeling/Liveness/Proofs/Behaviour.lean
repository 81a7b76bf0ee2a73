/-
Liveness/Proofs/Behaviour.lean

Runs of pieces of programs.  A run executes some points, one after another, and
ends in one of five ways: normally, by a `break`, by a `continue`, by an
exception, or not at all, because it is watched for some time only.  The last
way makes every finite beginning of a run a run, so that runs which never end are
covered too.

The runs of a piece are a relation between what is executed and how it ends, and
each form of statement has an operation on such relations.  Going on after a
piece that ended normally and handling an exception are one operation (`chain`),
which differs in the way of ending that it waits for.

What other modules need to know about runs is seen through five observations:
the first point, the last point of runs that end in a given way, the pairs of
points that are executed one right after the other, the ways of ending, and the
points executed at all.  For each operation the observations of the whole are
given by those of its parts.
-/
import Liveness.Unique

namespace Liveness

/-- How a run ends.  A run that is watched for some time only is `cut`. -/
inductive Completion where
  | normal
  | broke
  | continued
  | threw
  | cut
  deriving DecidableEq, Repr

/-- How a loop ends if its body has ended in a way; none if it goes on with its test. -/
def Completion.outOfLoop? : Completion → Option Completion
  | .normal | .continued => none
  | .broke => some .normal
  | .threw => some .threw
  | .cut => some .cut

/-- The runs of a piece of a program: what is executed, in order, and how it ends. -/
abbrev Behaviour (α : Type) := List α → Completion → Prop

namespace Behaviour

variable {α : Type}

/-! ### Operations -/

/-- Nothing is executed. -/
def idle : Behaviour α := fun t k => t = [] ∧ k = .normal

/-- One point is executed, and then the piece ends in one of some ways. -/
def single (x : α) (ends : List Completion) : Behaviour α := fun t k =>
  t = [x] ∧ (k = .cut ∨ k ∈ ends)

/-- A piece, and another one after it if the first has ended in the way `via`. -/
def chain (via : Completion) (b c : Behaviour α) : Behaviour α := fun t k =>
  (b t k ∧ k ≠ via) ∨ ∃ t₁ t₂, t = t₁ ++ t₂ ∧ b t₁ via ∧ c t₂ k

/-- One piece after another. -/
abbrev andThen (b c : Behaviour α) : Behaviour α := chain .normal b c

/-- A piece whose exceptions are handled by another. -/
abbrev caught (b c : Behaviour α) : Behaviour α := chain .threw b c

/-- One of two pieces, each under a condition. -/
def either (P : Prop) (b : Behaviour α) (Q : Prop) (c : Behaviour α) : Behaviour α := fun t k =>
  (P ∧ b t k) ∨ (Q ∧ c t k)

/-- One of some pieces. -/
def oneOf (bs : List (Behaviour α)) : Behaviour α := fun t k => ∃ b ∈ bs, b t k

/-- A loop whose test may hold if `P` and may fail if `Q`. -/
inductive Loop (test : Behaviour α) (P Q : Prop) (body : Behaviour α) : Behaviour α
  | stop {t k} : test t k → k ≠ .normal → Loop test P Q body t k
  | done {t} : test t .normal → Q → Loop test P Q body t .normal
  | leave {t₀ t₁ k k'} : test t₀ .normal → P → body t₁ k → k.outOfLoop? = some k' →
      Loop test P Q body (t₀ ++ t₁) k'
  | again {t₀ t₁ t₂ k k'} : test t₀ .normal → P → body t₁ k → k.outOfLoop? = none →
      Loop test P Q body t₂ k' → Loop test P Q body (t₀ ++ t₁ ++ t₂) k'

/-- A piece with another one that runs on every way out of it.  Unless that one ends normally, it
decides how the whole ends. -/
def closing (b last : Behaviour α) : Behaviour α := fun t k =>
  (b t k ∧ k = .cut) ∨
    ∃ t₁ k₁ t₂ k₂, t = t₁ ++ t₂ ∧ b t₁ k₁ ∧ k₁ ≠ .cut ∧ last t₂ k₂ ∧
      k = if k₂ = .normal then k₁ else k₂

/-- A piece that may also be left by an exception right after its first point. -/
def leaping (b : Behaviour α) : Behaviour α := fun t k =>
  b t k ∨ (k = .threw ∧ ∃ x, t = [x] ∧ ∃ t' k', b (x :: t') k')

/-! ### Observations -/

/-- A point with which some run begins. -/
def First (b : Behaviour α) (x : α) : Prop := ∃ t k, b t k ∧ t.head? = some x

/-- A point with which some run that ends in the way `k` ends. -/
def Last (b : Behaviour α) (k : Completion) (x : α) : Prop := ∃ t, b t k ∧ t.getLast? = some x

/-- Two points that some run executes one right after the other. -/
def Follows (b : Behaviour α) (x y : α) : Prop := ∃ t k, b t k ∧ [x, y] <:+: t

/-- Some run ends in the way `k`. -/
def Ends (b : Behaviour α) (k : Completion) : Prop := ∃ t, b t k

/-- A point that some run executes. -/
def Visits (b : Behaviour α) (x : α) : Prop := ∃ t k, b t k ∧ x ∈ t

theorem Last.ends {b : Behaviour α} {k : Completion} {x : α} (h : b.Last k x) : b.Ends k := by
  obtain ⟨t, ht, -⟩ := h
  exact ⟨t, ht⟩

/-- A run in which something is executed has a last point. -/
theorem ends_iff_last {b : Behaviour α} {k : Completion} (h : ¬ b [] k) :
    b.Ends k ↔ ∃ x, b.Last k x := by
  constructor
  · rintro ⟨t, ht⟩
    rcases hx : t.getLast? with - | x
    · rw [List.getLast?_eq_none_iff.mp hx] at ht
      exact absurd ht h
    · exact ⟨x, t, ht, hx⟩
  · rintro ⟨x, hx⟩
    exact hx.ends

/-! ### Pairs in lists -/

theorem pair_infix_cons {x y a : α} {t : List α} :
    [x, y] <:+: a :: t ↔ (x = a ∧ t.head? = some y) ∨ [x, y] <:+: t := by
  rw [List.infix_cons_iff, List.cons_prefix_cons, List.head?_eq_some_iff]
  refine or_congr (and_congr Iff.rfl ?_) Iff.rfl
  constructor
  · rintro ⟨r, hr⟩
    exact ⟨r, hr.symm⟩
  · rintro ⟨r, rfl⟩
    exact ⟨r, rfl⟩

/-- A pair in a list that is put together stands in one of the parts, or across. -/
theorem pair_infix_append {x y : α} {s t : List α} :
    [x, y] <:+: s ++ t ↔
      [x, y] <:+: s ∨ [x, y] <:+: t ∨ (s.getLast? = some x ∧ t.head? = some y) := by
  induction s with
  | nil => simp
  | cons a s ih =>
    rw [List.cons_append, pair_infix_cons, pair_infix_cons, ih]
    -- `a` is next to the seam only if nothing is left of the first part
    cases s with
    | nil =>
      rw [List.getLast?_singleton, Option.some.injEq, eq_comm]
      simp [or_comm]
    | cons b s =>
      rw [List.getLast?_cons_cons, List.cons_append, List.head?_cons, List.head?_cons, or_assoc]

theorem getLast?_append_eq_some {x : α} {s t : List α} :
    (s ++ t).getLast? = some x ↔ t.getLast? = some x ∨ (t = [] ∧ s.getLast? = some x) := by
  rw [List.getLast?_append]
  rcases h : t.getLast? with - | y
  · simp [List.getLast?_eq_none_iff.mp h]
  · have ht : t ≠ [] := by
      rintro rfl
      cases h
    simp [ht]

theorem head?_append_eq_some {x : α} {s t : List α} :
    (s ++ t).head? = some x ↔ s.head? = some x ∨ (s = [] ∧ t.head? = some x) := by
  cases s with
  | nil => simp
  | cons y s => simp

/-! ### Observing nothing -/

theorem not_visits_idle {x : α} : ¬ idle.Visits x := by
  rintro ⟨t, k, ⟨rfl, -⟩, hx⟩
  cases hx

theorem ends_idle {k : Completion} (h : (idle : Behaviour α).Ends k) : k = .normal := by
  obtain ⟨t, -, hk⟩ := h
  exact hk

/-! ### Observing a chain -/

variable {via k : Completion} {b c : Behaviour α} {x y : α}

theorem chain_nil : chain via b c [] k ↔ (b [] k ∧ k ≠ via) ∨ (b [] via ∧ c [] k) := by
  refine or_congr Iff.rfl ⟨?_, ?_⟩
  · rintro ⟨t₁, t₂, ht, hb, hc⟩
    obtain ⟨rfl, rfl⟩ := List.append_eq_nil_iff.mp ht.symm
    exact ⟨hb, hc⟩
  · rintro ⟨hb, hc⟩
    exact ⟨[], [], rfl, hb, hc⟩

theorem ends_chain : (chain via b c).Ends k ↔ (b.Ends k ∧ k ≠ via) ∨ (b.Ends via ∧ c.Ends k) := by
  constructor
  · rintro ⟨t, ⟨hb, hk⟩ | ⟨t₁, t₂, -, hb, hc⟩⟩
    · exact Or.inl ⟨⟨t, hb⟩, hk⟩
    · exact Or.inr ⟨⟨t₁, hb⟩, ⟨t₂, hc⟩⟩
  · rintro (⟨⟨t, hb⟩, hk⟩ | ⟨⟨t₁, hb⟩, ⟨t₂, hc⟩⟩)
    · exact ⟨t, Or.inl ⟨hb, hk⟩⟩
    · exact ⟨t₁ ++ t₂, Or.inr ⟨t₁, t₂, rfl, hb, hc⟩⟩

/-- Every run of the first piece begins a run of the chain, if the second has runs at all. -/
theorem chain_extends (via : Completion) {t : List α} (hc : ∃ t k, c t k) (h : b t k) :
    ∃ t' k', chain via b c (t ++ t') k' := by
  by_cases hk : k = via
  · obtain ⟨t', k', hc⟩ := hc
    exact ⟨t', k', Or.inr ⟨t, t', rfl, hk ▸ h, hc⟩⟩
  · exact ⟨[], k, Or.inl ⟨by rwa [List.append_nil], hk⟩⟩

theorem first_chain (hc : ∃ t k, c t k) :
    (chain via b c).First x ↔ b.First x ∨ (b [] via ∧ c.First x) := by
  constructor
  · rintro ⟨t, k, ⟨hb, -⟩ | ⟨t₁, t₂, rfl, hb, hc⟩, hx⟩
    · exact Or.inl ⟨t, k, hb, hx⟩
    · rcases head?_append_eq_some.mp hx with hx | ⟨rfl, hx⟩
      · exact Or.inl ⟨t₁, via, hb, hx⟩
      · exact Or.inr ⟨hb, t₂, k, hc, hx⟩
  · rintro (⟨t, k, hb, hx⟩ | ⟨hb, t, k, hc, hx⟩)
    · obtain ⟨t', k', h⟩ := chain_extends via hc hb
      exact ⟨t ++ t', k', h, head?_append_eq_some.mpr (Or.inl hx)⟩
    · exact ⟨t, k, Or.inr ⟨[], t, rfl, hb, hc⟩, hx⟩

theorem last_chain :
    (chain via b c).Last k x ↔
      (b.Last k x ∧ k ≠ via) ∨ (b.Ends via ∧ c.Last k x) ∨ (b.Last via x ∧ c [] k) := by
  constructor
  · rintro ⟨t, ⟨hb, hk⟩ | ⟨t₁, t₂, rfl, hb, hc⟩, hx⟩
    · exact Or.inl ⟨⟨t, hb, hx⟩, hk⟩
    · rcases getLast?_append_eq_some.mp hx with hx | ⟨rfl, hx'⟩
      · exact Or.inr (Or.inl ⟨⟨t₁, hb⟩, t₂, hc, hx⟩)
      · exact Or.inr (Or.inr ⟨⟨t₁, hb, hx'⟩, hc⟩)
  · rintro (⟨⟨t, hb, hx⟩, hk⟩ | ⟨⟨t₁, hb⟩, t₂, hc, hx⟩ | ⟨⟨t, hb, hx⟩, hc⟩)
    · exact ⟨t, Or.inl ⟨hb, hk⟩, hx⟩
    · exact ⟨t₁ ++ t₂, Or.inr ⟨t₁, t₂, rfl, hb, hc⟩, getLast?_append_eq_some.mpr (Or.inl hx)⟩
    · exact ⟨t, Or.inr ⟨t, [], by rw [List.append_nil], hb, hc⟩, hx⟩

theorem follows_chain (hc : ∃ t k, c t k) :
    (chain via b c).Follows x y ↔
      b.Follows x y ∨ (b.Ends via ∧ c.Follows x y) ∨ (b.Last via x ∧ c.First y) := by
  constructor
  · rintro ⟨t, k, ⟨hb, -⟩ | ⟨t₁, t₂, rfl, hb, hc⟩, hxy⟩
    · exact Or.inl ⟨t, k, hb, hxy⟩
    · rcases pair_infix_append.mp hxy with hxy | hxy | ⟨hx, hy⟩
      · exact Or.inl ⟨t₁, via, hb, hxy⟩
      · exact Or.inr (Or.inl ⟨⟨t₁, hb⟩, t₂, k, hc, hxy⟩)
      · exact Or.inr (Or.inr ⟨⟨t₁, hb, hx⟩, t₂, k, hc, hy⟩)
  · rintro (⟨t, k, hb, hxy⟩ | ⟨⟨t₁, hb⟩, t₂, k, hc, hxy⟩ | ⟨⟨t₁, hb, hx⟩, t₂, k, hc, hy⟩)
    · obtain ⟨t', k', h⟩ := chain_extends via hc hb
      exact ⟨t ++ t', k', h, pair_infix_append.mpr (Or.inl hxy)⟩
    · exact ⟨t₁ ++ t₂, k, Or.inr ⟨t₁, t₂, rfl, hb, hc⟩, pair_infix_append.mpr (Or.inr (Or.inl hxy))⟩
    · exact ⟨t₁ ++ t₂, k, Or.inr ⟨t₁, t₂, rfl, hb, hc⟩,
        pair_infix_append.mpr (Or.inr (Or.inr ⟨hx, hy⟩))⟩

theorem visits_chain (h : (chain via b c).Visits x) : b.Visits x ∨ (b.Ends via ∧ c.Visits x) := by
  obtain ⟨t, k, ⟨hb, -⟩ | ⟨t₁, t₂, rfl, hb, hc⟩, hx⟩ := h
  · exact Or.inl ⟨t, k, hb, hx⟩
  · rcases List.mem_append.mp hx with hx | hx
    · exact Or.inl ⟨t₁, via, hb, hx⟩
    · exact Or.inr ⟨⟨t₁, hb⟩, t₂, k, hc, hx⟩

/-- Chains may be put in brackets either way. -/
theorem chain_assoc (d : Behaviour α) :
    chain via (chain via b c) d = chain via b (chain via c d) := by
  funext t k
  apply propext
  constructor
  · rintro (⟨⟨hb, -⟩ | ⟨t₁, t₂, rfl, hb, hc⟩, hk⟩ | ⟨t₁, t₂, rfl, ⟨-, hv⟩ | ⟨r, s, rfl, hb, hc⟩, hd⟩)
    · exact Or.inl ⟨hb, hk⟩
    · exact Or.inr ⟨t₁, t₂, rfl, hb, Or.inl ⟨hc, hk⟩⟩
    · -- what ends before `c` does not end in the way that `d` waits for
      exact absurd rfl hv
    · exact Or.inr ⟨r, s ++ t₂, List.append_assoc .., hb, Or.inr ⟨s, t₂, rfl, hc, hd⟩⟩
  · rintro (⟨hb, hk⟩ | ⟨t₁, t₂, rfl, hb, ⟨hc, hk⟩ | ⟨r, s, rfl, hc, hd⟩⟩)
    · exact Or.inl ⟨Or.inl ⟨hb, hk⟩, hk⟩
    · exact Or.inl ⟨Or.inr ⟨t₁, t₂, rfl, hb, hc⟩, hk⟩
    · exact Or.inr ⟨t₁ ++ r, s, (List.append_assoc ..).symm, Or.inr ⟨t₁, r, rfl, hb, hc⟩, hd⟩

theorem andThen_assoc (d : Behaviour α) : (b.andThen c).andThen d = b.andThen (c.andThen d) :=
  chain_assoc d

theorem andThen_idle : b.andThen idle = b := by
  funext t k
  apply propext
  constructor
  · rintro (⟨hb, -⟩ | ⟨t₁, t₂, rfl, hb, rfl, rfl⟩)
    · exact hb
    · rwa [List.append_nil]
  · intro hb
    by_cases hk : k = .normal
    · subst hk
      exact Or.inr ⟨t, [], by rw [List.append_nil], hb, rfl, rfl⟩
    · exact Or.inl ⟨hb, hk⟩

theorem idle_andThen : idle.andThen b = b := by
  funext t k
  apply propext
  constructor
  · rintro (⟨⟨-, hk⟩, hne⟩ | ⟨t₁, t₂, rfl, ⟨rfl, -⟩, hb⟩)
    · exact absurd hk hne
    · exact hb
  · intro hb
    exact Or.inr ⟨[], t, rfl, ⟨rfl, rfl⟩, hb⟩

/-- What never ends in the way that is waited for is not gone on from. -/
theorem chain_of_not_ends (h : ¬ b.Ends via) : chain via b c = b := by
  funext t k
  apply propext
  constructor
  · rintro (⟨hb, -⟩ | ⟨t₁, t₂, -, hb, -⟩)
    · exact hb
    · exact absurd ⟨t₁, hb⟩ h
  · intro hb
    exact Or.inl ⟨hb, fun hk => h ⟨t, hk ▸ hb⟩⟩

theorem andThen_of_not_ends (h : ¬ b.Ends .normal) : b.andThen c = b :=
  chain_of_not_ends h

theorem idle_caught : idle.caught c = idle := by
  apply chain_of_not_ends
  intro h
  cases ends_idle h

theorem closing_idle : closing idle c = c := by
  funext t k
  apply propext
  constructor
  · rintro (⟨⟨-, hk⟩, hcut⟩ | ⟨t₁, k₁, t₂, k₂, rfl, ⟨rfl, rfl⟩, -, hc, rfl⟩)
    · rw [hk] at hcut
      cases hcut
    · by_cases hk₂ : k₂ = .normal
      · rw [if_pos hk₂]
        exact hk₂ ▸ hc
      · rw [if_neg hk₂]
        exact hc
  · intro hc
    refine Or.inr ⟨[], .normal, t, k, rfl, ⟨rfl, rfl⟩, by decide, hc, ?_⟩
    by_cases hk : k = .normal
    · rw [if_pos hk, hk]
    · rw [if_neg hk]

/-! ### Observing a single point -/

variable {ends : List Completion}

theorem not_single_nil : ¬ single x ends [] k := fun h => List.cons_ne_nil x [] h.1.symm

theorem first_single : (single x ends).First y ↔ y = x := by
  constructor
  · rintro ⟨t, k, ⟨rfl, -⟩, hy⟩
    exact (Option.some.inj hy).symm
  · rintro rfl
    exact ⟨[y], .cut, ⟨rfl, Or.inl rfl⟩, rfl⟩

theorem ends_single : (single x ends).Ends k ↔ k = .cut ∨ k ∈ ends := by
  constructor
  · rintro ⟨t, -, hk⟩
    exact hk
  · intro hk
    exact ⟨[x], rfl, hk⟩

theorem last_single : (single x ends).Last k y ↔ y = x ∧ (k = .cut ∨ k ∈ ends) := by
  constructor
  · rintro ⟨t, ⟨rfl, hk⟩, hy⟩
    exact ⟨(Option.some.inj hy).symm, hk⟩
  · rintro ⟨rfl, hk⟩
    exact ⟨[y], ⟨rfl, hk⟩, rfl⟩

theorem not_follows_single {z : α} : ¬ (single z ends).Follows x y := by
  rintro ⟨t, k, ⟨rfl, -⟩, hxy⟩
  have := hxy.length_le
  simp at this

theorem visits_single (h : (single x ends).Visits y) : y = x := by
  obtain ⟨t, k, ⟨rfl, -⟩, hy⟩ := h
  exact List.mem_singleton.mp hy

/-! ### Observing a point and what comes after it -/

section Test

variable {z : α}

theorem not_test_nil : ¬ (single z ends).andThen c [] k := by
  intro h
  rcases chain_nil.mp h with ⟨h, -⟩ | ⟨h, -⟩
  · exact not_single_nil h
  · exact not_single_nil h

theorem first_test (hc : ∃ t k, c t k) : ((single z ends).andThen c).First x ↔ x = z := by
  rw [first_chain hc, first_single]
  exact or_iff_left fun h => not_single_nil h.1

theorem ends_test : ((single z [.normal]).andThen c).Ends .normal ↔ c.Ends .normal := by
  rw [ends_chain, ends_single]
  simp

theorem follows_test (hc : ∃ t k, c t k) :
    ((single z [.normal]).andThen c).Follows x y ↔ (x = z ∧ c.First y) ∨ c.Follows x y := by
  rw [follows_chain hc, ends_single, last_single, or_iff_right not_follows_single, or_comm]
  simp

theorem last_test (hk : k ≠ .cut) :
    ((single z [.normal]).andThen c).Last k x ↔ c.Last k x ∨ (x = z ∧ c [] k) := by
  rw [last_chain, ends_single, last_single, last_single, or_iff_right]
  · simp
  · rintro ⟨⟨-, hcut | hmem⟩, hne⟩
    · exact hk hcut
    · exact hne (List.mem_singleton.mp hmem)

end Test

/-! ### Observing a choice -/

section Choice

variable {bs : List (Behaviour α)}

theorem first_oneOf : (oneOf bs).First x ↔ ∃ b ∈ bs, b.First x := by
  constructor
  · rintro ⟨t, k, ⟨b, hb, h⟩, hx⟩
    exact ⟨b, hb, t, k, h, hx⟩
  · rintro ⟨b, hb, t, k, h, hx⟩
    exact ⟨t, k, ⟨b, hb, h⟩, hx⟩

theorem last_oneOf : (oneOf bs).Last k x ↔ ∃ b ∈ bs, b.Last k x := by
  constructor
  · rintro ⟨t, ⟨b, hb, h⟩, hx⟩
    exact ⟨b, hb, t, h, hx⟩
  · rintro ⟨b, hb, t, h, hx⟩
    exact ⟨t, ⟨b, hb, h⟩, hx⟩

theorem follows_oneOf : (oneOf bs).Follows x y ↔ ∃ b ∈ bs, b.Follows x y := by
  constructor
  · rintro ⟨t, k, ⟨b, hb, h⟩, hxy⟩
    exact ⟨b, hb, t, k, h, hxy⟩
  · rintro ⟨b, hb, t, k, h, hxy⟩
    exact ⟨t, k, ⟨b, hb, h⟩, hxy⟩

theorem ends_oneOf : (oneOf bs).Ends k ↔ ∃ b ∈ bs, b.Ends k := by
  constructor
  · rintro ⟨t, b, hb, h⟩
    exact ⟨b, hb, t, h⟩
  · rintro ⟨b, hb, t, h⟩
    exact ⟨t, b, hb, h⟩

theorem either_eq_oneOf (P Q : Prop) [Decidable P] [Decidable Q] (b c : Behaviour α) :
    either P b Q c = oneOf ((if P then [b] else []) ++ if Q then [c] else []) := by
  funext t k
  apply propext
  by_cases hP : P <;> by_cases hQ : Q <;> simp [either, oneOf, hP, hQ]

theorem visits_either {P Q : Prop} (h : (either P b Q c).Visits x) :
    (P ∧ b.Visits x) ∨ (Q ∧ c.Visits x) := by
  obtain ⟨t, k, ⟨hP, h⟩ | ⟨hQ, h⟩, hx⟩ := h
  · exact Or.inl ⟨hP, t, k, h, hx⟩
  · exact Or.inr ⟨hQ, t, k, h, hx⟩

theorem ends_either {P Q : Prop} (h : (either P b Q c).Ends k) :
    (P ∧ b.Ends k) ∨ (Q ∧ c.Ends k) := by
  obtain ⟨t, ⟨hP, h⟩ | ⟨hQ, h⟩⟩ := h
  · exact Or.inl ⟨hP, t, h⟩
  · exact Or.inr ⟨hQ, t, h⟩

end Choice

/-! ### Observing a piece that may be left early -/

theorem leaping_nil : b.leaping [] k ↔ b [] k := by
  constructor
  · rintro (h | ⟨-, x, hx, -⟩)
    · exact h
    · cases hx
  · exact Or.inl

theorem first_leaping : b.leaping.First x ↔ b.First x := by
  constructor
  · rintro ⟨t, k, h | ⟨-, y, rfl, t', k', h⟩, hx⟩
    · exact ⟨t, k, h, hx⟩
    · exact ⟨y :: t', k', h, hx⟩
  · rintro ⟨t, k, h, hx⟩
    exact ⟨t, k, Or.inl h, hx⟩

theorem follows_leaping : b.leaping.Follows x y ↔ b.Follows x y := by
  constructor
  · rintro ⟨t, k, h | ⟨-, z, rfl, -⟩, hxy⟩
    · exact ⟨t, k, h, hxy⟩
    · have := hxy.length_le
      simp at this
  · rintro ⟨t, k, h, hxy⟩
    exact ⟨t, k, Or.inl h, hxy⟩

theorem last_leaping : b.leaping.Last k x ↔ b.Last k x ∨ (k = .threw ∧ b.First x) := by
  constructor
  · rintro ⟨t, h | ⟨hk, y, rfl, t', k', h⟩, hx⟩
    · exact Or.inl ⟨t, h, hx⟩
    · obtain rfl := Option.some.inj hx
      exact Or.inr ⟨hk, y :: t', k', h, rfl⟩
  · rintro (⟨t, h, hx⟩ | ⟨hk, t, k', h, hx⟩)
    · exact ⟨t, Or.inl h, hx⟩
    · obtain ⟨t', rfl⟩ := List.head?_eq_some_iff.mp hx
      exact ⟨[x], Or.inr ⟨hk, x, rfl, t', k', h⟩, rfl⟩

theorem ends_leaping_normal : b.leaping.Ends .normal ↔ b.Ends .normal := by
  constructor
  · rintro ⟨t, h | ⟨hk, -⟩⟩
    · exact ⟨t, h⟩
    · cases hk
  · rintro ⟨t, h⟩
    exact ⟨t, Or.inl h⟩

/-! ### Observing a loop -/

section Loop

variable {z : α} {P Q : Prop} {body : Behaviour α}

theorem head?_of_loop {t : List α} (h : Loop (single z ends) P Q body t k) : t.head? = some z := by
  cases h with
  | stop h _ => rw [h.1]; rfl
  | done h _ => rw [h.1]; rfl
  | leave h _ _ _ => rw [h.1]; rfl
  | again h _ _ _ _ => rw [h.1]; rfl

theorem loop_cut : Loop (single z ends) P Q body [z] .cut :=
  .stop ⟨rfl, Or.inl rfl⟩ (by decide)

theorem first_loop : (Loop (single z ends) P Q body).First x ↔ x = z := by
  constructor
  · rintro ⟨t, k, h, hx⟩
    rw [head?_of_loop h] at hx
    exact (Option.some.inj hx).symm
  · rintro rfl
    exact ⟨[x], .cut, loop_cut, rfl⟩

theorem visits_loop (h : (Loop (single z ends) P Q body).Visits x) :
    x = z ∨ (P ∧ body.Visits x) := by
  obtain ⟨t, k, h, hx⟩ := h
  induction h with
  | stop h _ => exact Or.inl (visits_single ⟨_, _, h, hx⟩)
  | done h _ => exact Or.inl (visits_single ⟨_, _, h, hx⟩)
  | leave h hP hbody _ =>
    rcases List.mem_append.mp hx with hx | hx
    · exact Or.inl (visits_single ⟨_, _, h, hx⟩)
    · exact Or.inr ⟨hP, _, _, hbody, hx⟩
  | again h hP hbody _ _ ih =>
    rcases List.mem_append.mp hx with hx | hx
    · rcases List.mem_append.mp hx with hx | hx
      · exact Or.inl (visits_single ⟨_, _, h, hx⟩)
      · exact Or.inr ⟨hP, _, _, hbody, hx⟩
    · exact ih hx

/-- A loop whose test always fails executes it once. -/
theorem loop_of_not (hP : ¬ P) (hQ : Q) :
    Loop (single z [.normal]) P Q body = single z [.normal] := by
  funext t k
  apply propext
  constructor
  · intro h
    cases h with
    | stop h _ => exact h
    | done h _ => exact h
    | leave _ h _ _ => exact absurd h hP
    | again _ h _ _ _ => exact absurd h hP
  · intro h
    by_cases hk : k = .normal
    · subst hk
      exact .done h hQ
    · exact .stop h hk

/-- Every run of the body stands in a run of the loop, right after the test. -/
theorem loop_extends {t : List α} (hP : P) (hends : .normal ∈ ends) (h : body t k) :
    ∃ t' k', Loop (single z ends) P Q body ([z] ++ t ++ t') k' := by
  have htest : single z ends [z] .normal := ⟨rfl, Or.inr hends⟩
  rcases hk : k.outOfLoop? with - | k'
  · -- another round begins, and it is cut right after its test
    exact ⟨[z], .cut, .again htest hP h hk loop_cut⟩
  · refine ⟨[], k', ?_⟩
    rw [List.append_nil]
    exact .leave htest hP h hk

/-- In a loop, the body follows its test and the test follows what ends a round. -/
theorem follows_loop (hP : P) (hends : .normal ∈ ends) :
    (Loop (single z ends) P Q body).Follows x y ↔
      (x = z ∧ body.First y) ∨ body.Follows x y ∨
        (y = z ∧ ∃ j, j.outOfLoop? = none ∧ (body.Last j x ∨ (x = z ∧ body [] j))) := by
  constructor
  · rintro ⟨t, k, h, hxy⟩
    induction h with
    | stop h _ => exact absurd ⟨_, _, h, hxy⟩ not_follows_single
    | done h _ => exact absurd ⟨_, _, h, hxy⟩ not_follows_single
    | leave h _ hbody _ =>
      rcases pair_infix_append.mp hxy with hxy | hxy | ⟨hx, hy⟩
      · exact absurd ⟨_, _, h, hxy⟩ not_follows_single
      · exact Or.inr (Or.inl ⟨_, _, hbody, hxy⟩)
      · rw [h.1] at hx
        exact Or.inl ⟨(Option.some.inj hx).symm, _, _, hbody, hy⟩
    | @again t₀ t₁ t₂ j _ h _ hbody hj hrest ih =>
      rcases pair_infix_append.mp hxy with hxy | hxy | ⟨hx, hy⟩
      · rcases pair_infix_append.mp hxy with hxy | hxy | ⟨hx, hy⟩
        · exact absurd ⟨_, _, h, hxy⟩ not_follows_single
        · exact Or.inr (Or.inl ⟨_, _, hbody, hxy⟩)
        · rw [h.1] at hx
          exact Or.inl ⟨(Option.some.inj hx).symm, _, _, hbody, hy⟩
      · exact ih hxy
      · -- from the end of this round to the test of the next one
        rw [head?_of_loop hrest] at hy
        refine Or.inr (Or.inr ⟨(Option.some.inj hy).symm, j, hj, ?_⟩)
        rcases getLast?_append_eq_some.mp hx with hx | ⟨rfl, hx⟩
        · exact Or.inl ⟨t₁, hbody, hx⟩
        · rw [h.1] at hx
          exact Or.inr ⟨(Option.some.inj hx).symm, hbody⟩
  · have htest : single z ends [z] .normal := ⟨rfl, Or.inr hends⟩
    rintro (⟨rfl, t, k, h, hy⟩ | ⟨t, k, h, hxy⟩ | ⟨rfl, j, hj, ⟨t, h, hx⟩ | ⟨rfl, h⟩⟩)
    · obtain ⟨t', k', hloop⟩ := loop_extends (Q := Q) hP hends h
      exact ⟨_, k', hloop, pair_infix_append.mpr
        (Or.inl (pair_infix_append.mpr (Or.inr (Or.inr ⟨rfl, hy⟩))))⟩
    · obtain ⟨t', k', hloop⟩ := loop_extends (Q := Q) hP hends h
      exact ⟨_, k', hloop, pair_infix_append.mpr
        (Or.inl (pair_infix_append.mpr (Or.inr (Or.inl hxy))))⟩
    · refine ⟨_, .cut, .again htest hP h hj loop_cut, ?_⟩
      exact pair_infix_append.mpr
        (Or.inr (Or.inr ⟨getLast?_append_eq_some.mpr (Or.inl hx), rfl⟩))
    · refine ⟨_, .cut, .again htest hP h hj loop_cut, ?_⟩
      exact pair_infix_append.mpr (Or.inr (Or.inr ⟨rfl, rfl⟩))

/-- A loop ends with its test or with what leaves its body, provided that nothing leaves it
silently. -/
theorem last_loop (hP : P) (hQ : Q) (hsilent : ∀ j, body [] j → j.outOfLoop? = none)
    (hk : k ≠ .cut) :
    (Loop (single z [.normal]) P Q body).Last k x ↔
      (k = .normal ∧ x = z) ∨ ∃ j, j.outOfLoop? = some k ∧ body.Last j x := by
  constructor
  · rintro ⟨t, h, hx⟩
    induction h with
    | stop h hne =>
      rcases h.2 with hcut | hmem
      · exact absurd hcut hk
      · exact absurd (List.mem_singleton.mp hmem) hne
    | done h _ =>
      rw [h.1] at hx
      exact Or.inl ⟨rfl, (Option.some.inj hx).symm⟩
    | @leave t₀ t₁ j _ h _ hbody hj =>
      rcases getLast?_append_eq_some.mp hx with hx | ⟨rfl, -⟩
      · exact Or.inr ⟨j, hj, t₁, hbody, hx⟩
      · rw [hsilent j hbody] at hj
        cases hj
    | @again t₀ t₁ t₂ j _ h _ hbody hj hrest ih =>
      rcases getLast?_append_eq_some.mp hx with hx | ⟨rfl, -⟩
      · exact ih hk hx
      · -- a further round executes its test at least
        cases head?_of_loop hrest
  · have htest : single z [.normal] [z] .normal := ⟨rfl, Or.inr (by decide)⟩
    rintro (⟨rfl, rfl⟩ | ⟨j, hj, t, h, hx⟩)
    · exact ⟨[x], .done htest hQ, rfl⟩
    · exact ⟨_, .leave htest hP h hj, getLast?_append_eq_some.mpr (Or.inl hx)⟩

end Loop

/-! ### Observing a piece with another one on the way out -/

theorem visits_closing (h : (closing b c).Visits x) : b.Visits x ∨ c.Visits x := by
  obtain ⟨t, k, ⟨hb, -⟩ | ⟨t₁, k₁, t₂, k₂, rfl, hb, -, hc, -⟩, hx⟩ := h
  · exact Or.inl ⟨t, k, hb, hx⟩
  · rcases List.mem_append.mp hx with hx | hx
    · exact Or.inl ⟨t₁, k₁, hb, hx⟩
    · exact Or.inr ⟨t₂, k₂, hc, hx⟩

/-- The whole ends normally only if both pieces do. -/
theorem ends_closing_normal (h : (closing b c).Ends .normal) : b.Ends .normal ∧ c.Ends .normal := by
  obtain ⟨t, ⟨-, hk⟩ | ⟨t₁, k₁, t₂, k₂, -, hb, -, hc, hk⟩⟩ := h
  · cases hk
  · by_cases hk₂ : k₂ = .normal
    · rw [if_pos hk₂] at hk
      subst hk hk₂
      exact ⟨⟨t₁, hb⟩, t₂, hc⟩
    · rw [if_neg hk₂] at hk
      exact absurd hk.symm hk₂

end Behaviour

end Liveness
