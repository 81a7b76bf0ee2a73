/-
Liveness/Proofs/Renamings.lean

Equations under other names.  `Renames f eqs eqs'` says that `eqs'` is `eqs` with
every node called `f node`: the nodes and the successors are renamed in their
order, and the transfers give the same sets.  The names have to tell apart only
what a run looks at, the nodes and their successors, and the transfers are
compared at nodes only.

Visits, sweeps and runs then correspond step by step, so the two systems are
solved by the same sets after the same number of sweeps, or both reach the cap
(`solve_renames`).  Nothing is asked of the transfers themselves, so this holds
of runs that depend on the order of the nodes too.
-/
import Liveness.Proofs.Sweeps

namespace Liveness

section Unique

variable {α β : Type} [DecidableEq α] [DecidableEq β]

/-- Repetitions are seen through a map that tells the items apart. -/
theorem unique_map {f : α → β} {xs : List α} (h : ∀ a ∈ xs, ∀ b ∈ xs, f a = f b → a = b) :
    unique (xs.map f) = (unique xs).map f := by
  induction xs with
  | nil => rfl
  | cons x xs ih =>
    have htail : ∀ a ∈ xs, ∀ b ∈ xs, f a = f b → a = b := fun a ha b hb =>
      h a (List.mem_cons_of_mem x ha) b (List.mem_cons_of_mem x hb)
    rw [List.map_cons, unique, unique, ih htail, List.map_cons, List.filter_map]
    refine congrArg _ (congrArg _ (List.filter_congr fun a ha => ?_))
    have hiff : f a = f x ↔ a = x :=
      ⟨h a (List.mem_cons_of_mem x (mem_unique.mp ha)) x List.mem_cons_self, congrArg f⟩
    simp [hiff]

end Unique

/-! ### Tables -/

namespace Table

variable {κ κ' : Type} [DecidableEq κ] [DecidableEq κ'] {f : κ → κ'}

/-- A table under other keys. -/
def rename (f : κ → κ') (t : Table κ) : Table κ' :=
  ⟨t.rows.map (Prod.map f id)⟩

omit [DecidableEq κ] [DecidableEq κ'] in
@[simp] theorem keys_rename (f : κ → κ') (t : Table κ) : (t.rename f).keys = t.keys.map f := by
  simp [keys, rename]

omit [DecidableEq κ] [DecidableEq κ'] in
@[simp] theorem rename_blank (f : κ → κ') (ks : List κ) :
    (blank ks).rename f = blank (ks.map f) := by
  simp [blank, rename]

theorem find?_rename {key : κ} {rows : List (κ × NameSet)}
    (h : ∀ row ∈ rows, f row.1 = f key → row.1 = key) :
    find? (f key) (rows.map (Prod.map f id)) = find? key rows := by
  induction rows with
  | nil => rfl
  | cons row rest ih =>
    have hrest := ih fun other ho => h other (List.mem_cons_of_mem row ho)
    have hiff : f row.1 = f key ↔ row.1 = key := ⟨h row List.mem_cons_self, congrArg f⟩
    simp only [List.map_cons, Prod.map, find?, hiff, id, hrest]

theorem get?_rename {key : κ} {t : Table κ} (h : ∀ k ∈ t.keys, f k = f key → k = key) :
    (t.rename f).get? (f key) = t.get? key :=
  find?_rename fun _ hrow => h _ (List.mem_map_of_mem hrow)

theorem get_rename {key : κ} {t : Table κ} (h : ∀ k ∈ t.keys, f k = f key → k = key) :
    (t.rename f).get (f key) = t.get key := by
  rw [get, get?_rename h, get]

theorem setRow_rename {key : κ} {rows : List (κ × NameSet)} (names : NameSet)
    (h : ∀ row ∈ rows, f row.1 = f key → row.1 = key) :
    setRow (f key) names (rows.map (Prod.map f id)) =
      (setRow key names rows).map (Prod.map f id) := by
  induction rows with
  | nil => rfl
  | cons row rest ih =>
    have hrest := ih fun other ho => h other (List.mem_cons_of_mem row ho)
    have hiff : f row.1 = f key ↔ row.1 = key := ⟨h row List.mem_cons_self, congrArg f⟩
    by_cases hk : row.1 = key
    · simp [Prod.map, setRow, hk]
    · simp only [List.map_cons, Prod.map, setRow, hiff, if_neg hk, id, hrest]

theorem set_rename {key : κ} {t : Table κ} (names : NameSet)
    (h : ∀ k ∈ t.keys, f k = f key → k = key) :
    (t.rename f).set (f key) names = (t.set key names).rename f :=
  congrArg Table.mk (setRow_rename names fun _ hrow => h _ (List.mem_map_of_mem hrow))

theorem add_rename {key : κ} {t : Table κ} (names : NameSet)
    (h : ∀ k ∈ t.keys, f k = f key → k = key) :
    (t.rename f).add (f key) names = (t.add key names).rename f := by
  rw [add, get_rename h, set_rename _ h, add]

omit [DecidableEq κ] [DecidableEq κ'] in
/-- Tables with the same keys are told apart by their sets, whatever the keys are called. -/
theorem rename_eq_rename_iff {t t' : Table κ} (h : t.keys = t'.keys) :
    t.rename f = t'.rename f ↔ t = t' := by
  refine ⟨fun he => ?_, congrArg _⟩
  obtain ⟨rows⟩ := t
  obtain ⟨rows'⟩ := t'
  have hsets : rows.map (·.2) = rows'.map (·.2) := by
    have hrows := congrArg (fun t : Table κ' => t.rows.map (·.2)) he
    simpa [rename, Function.comp_def] using hrows
  have hkeys : rows.map (·.1) = rows'.map (·.1) := h
  have hrows : rows = rows' := by
    rw [← List.zip_unzip rows, ← List.zip_unzip rows', List.unzip_eq_map, List.unzip_eq_map, hkeys,
      hsets]
  rw [hrows]

end Table

/-- Sets for nodes that are called otherwise. -/
def Assignment.rename {ν μ : Type} (f : ν → μ) (facts : Assignment ν) : Assignment μ where
  entry := facts.entry.rename f
  exit := facts.exit.rename f

/-- A solution for nodes that are called otherwise. -/
def Solution.rename {ν μ : Type} (f : ν → μ) (sol : Solution ν) : Solution μ where
  facts := sol.facts.rename f
  passes := sol.passes

namespace Equations

variable {ν μ : Type} [DecidableEq ν] [DecidableEq μ] {f : ν → μ} {eqs : Equations ν}
  {eqs' : Equations μ}

/-- What a run of the solver looks at: nodes and successors of nodes. -/
def Seen (eqs : Equations ν) (node : ν) : Prop :=
  node ∈ eqs.nodes ∨ ∃ other ∈ eqs.nodes, node ∈ eqs.successors other

/-- The second system is the first one with every node called `f node`. -/
structure Renames (f : ν → μ) (eqs : Equations ν) (eqs' : Equations μ) : Prop where
  nodes : eqs'.nodes = eqs.nodes.map f
  apart : ∀ node ∈ eqs.nodes, ∀ other, eqs.Seen other → f node = f other → node = other
  successors : ∀ node ∈ eqs.nodes, eqs'.successors (f node) = (eqs.successors node).map f
  transfer : ∀ sweeps, ∀ node ∈ eqs.nodes, ∀ out,
    eqs'.transfer sweeps (f node) out = eqs.transfer sweeps node out

/-! ### Visits, sweeps and runs -/

theorem Renames.order (h : Renames f eqs eqs') : eqs'.order = eqs.order.map f := by
  rw [Equations.order, h.nodes]
  exact unique_map fun a ha b hb => h.apart a ha b (Or.inl hb)

omit [DecidableEq μ] in
/-- No key of the tables is mistaken for another one. -/
theorem Renames.apart_keys (h : Renames f eqs eqs') {t : Table ν} (ht : t.keys = eqs.order)
    {node : ν} (hnode : eqs.Seen node) : ∀ k ∈ t.keys, f k = f node → k = node := by
  intro k hk
  rw [ht, mem_order] at hk
  exact h.apart k hk node hnode

theorem Renames.exitOf (h : Renames f eqs eqs') {facts : Assignment ν} (hkeys : eqs.Keyed facts)
    {node : ν} (hnode : node ∈ eqs.nodes) :
    eqs'.exitOf (facts.rename f) (f node) = eqs.exitOf facts node := by
  have hget : ∀ next ∈ eqs.successors node,
      (facts.rename f).entry.get (f next) = facts.entry.get next := fun next hnext =>
    Table.get_rename (h.apart_keys hkeys.1 (Or.inr ⟨node, hnode, hnext⟩))
  ext x
  rw [mem_exitOf, mem_exitOf, h.successors node hnode]
  constructor
  · rintro ⟨name, hname, hx⟩
    obtain ⟨next, hnext, rfl⟩ := List.mem_map.mp hname
    exact ⟨next, hnext, hget next hnext ▸ hx⟩
  · rintro ⟨next, hnext, hx⟩
    exact ⟨f next, List.mem_map_of_mem hnext, (hget next hnext).symm ▸ hx⟩

theorem Renames.visit (h : Renames f eqs eqs') {facts : Assignment ν} (hkeys : eqs.Keyed facts)
    (sweeps : Nat) {node : ν} (hnode : node ∈ eqs.nodes) :
    eqs'.visit sweeps (facts.rename f) (f node) = (eqs.visit sweeps facts node).rename f := by
  have hentry := h.apart_keys hkeys.1 (Or.inl hnode)
  have hexit := h.apart_keys hkeys.2 (Or.inl hnode)
  show Assignment.mk ((facts.entry.rename f).set (f node) _)
    ((facts.exit.rename f).set (f node) _) = _
  rw [h.exitOf hkeys hnode, h.transfer sweeps node hnode, Table.set_rename _ hentry,
    Table.set_rename _ hexit]
  rfl

theorem Renames.sweep (h : Renames f eqs eqs') {facts : Assignment ν} (hkeys : eqs.Keyed facts)
    (sweeps : Nat) : eqs'.sweep sweeps (facts.rename f) = (eqs.sweep sweeps facts).rename f := by
  have key : ∀ nodes : List ν, (∀ node ∈ nodes, node ∈ eqs.order) → ∀ facts, eqs.Keyed facts →
      (nodes.map f).foldl (eqs'.visit sweeps) (facts.rename f) =
        (nodes.foldl (eqs.visit sweeps) facts).rename f := by
    intro nodes
    induction nodes with
    | nil => exact fun _ _ _ => rfl
    | cons first rest ih =>
      intro hsub facts hkeys
      have hfirst := hsub first List.mem_cons_self
      rw [List.map_cons, List.foldl_cons, List.foldl_cons,
        h.visit hkeys sweeps (mem_order.mp hfirst)]
      exact ih (fun node hm => hsub node (List.mem_cons_of_mem first hm)) _
        (hkeys.visit sweeps hfirst)
  rw [Equations.sweep, h.order]
  exact key eqs.order (fun _ hm => hm) facts hkeys

omit [DecidableEq μ] in
/-- Whether sets have changed does not depend on the names. -/
theorem Keyed.rename_eq_rename_iff {facts facts' : Assignment ν} (h : eqs.Keyed facts)
    (h' : eqs.Keyed facts') : facts.rename f = facts'.rename f ↔ facts = facts' := by
  obtain ⟨entry, exit⟩ := facts
  obtain ⟨entry', exit'⟩ := facts'
  have hentry := Table.rename_eq_rename_iff (f := f) (h.1.trans h'.1.symm)
  have hexit := Table.rename_eq_rename_iff (f := f) (h.2.trans h'.2.symm)
  simp only [Assignment.rename, Assignment.mk.injEq, hentry, hexit]

theorem Renames.iterate (h : Renames f eqs eqs') {facts : Assignment ν} (hkeys : eqs.Keyed facts)
    (budget sweeps : Nat) :
    eqs'.iterate budget sweeps (facts.rename f) =
      (eqs.iterate budget sweeps facts).map (·.rename f) := by
  induction budget generalizing sweeps facts with
  | zero => rfl
  | succ budget ih =>
    have hnext := hkeys.sweep sweeps
    rw [Equations.iterate, Equations.iterate]
    simp only [h.sweep hkeys sweeps, hnext.rename_eq_rename_iff hkeys]
    split
    · rfl
    · exact ih hnext (sweeps + 1)

/-- **Renamed equations are solved alike.**  The solutions differ by the names of the nodes, and
took the same number of sweeps; or both systems reach the cap. -/
theorem solve_renames (h : Renames f eqs eqs') (cap : Int) :
    eqs'.solve cap = (eqs.solve cap).map (·.rename f) := by
  have hstart : eqs'.start = eqs.start.rename f := by
    simp only [start, h.order, Assignment.rename, Table.rename_blank]
  rw [solve, hstart, solve]
  exact h.iterate eqs.keyed_start cap.toNat 0

/-- Equations whose transfers agree at the nodes are solved alike. -/
theorem solve_congr {eqs eqs' : Equations ν} (hnodes : eqs'.nodes = eqs.nodes)
    (hsuccessors : eqs'.successors = eqs.successors)
    (htransfer : ∀ sweeps, ∀ node ∈ eqs.nodes, eqs'.transfer sweeps node = eqs.transfer sweeps node)
    (cap : Int) : eqs'.solve cap = eqs.solve cap := by
  have h : Renames id eqs eqs' :=
    { nodes := by rw [hnodes, List.map_id]
      apart := fun _ _ _ _ he => he
      successors := fun node _ => by rw [hsuccessors, List.map_id]; rfl
      transfer := fun sweeps node hnode out => congrFun (htransfer sweeps node hnode) out }
  rw [solve_renames h]
  have hid : ∀ sol : Solution ν, sol.rename id = sol := fun sol => by
    simp [Solution.rename, Assignment.rename, Table.rename]
  cases eqs.solve cap with
  | error d => rfl
  | ok sol => exact congrArg Except.ok (hid sol)

end Equations

end Liveness
