/-
Liveness/Proofs/Unreachable.lean

Unreachable code is never executed.  No run of a program, `finally` included,
executes a point inside a statement that is reported as unreachable, or inside a
block that is reported as dead, even if every point may raise.

Two facts about all runs carry the argument.  Where the builder finds nothing to
run, nothing is executed (`Stmt.runs_eq_idle`), so a handler of such a block is
never entered; and a statement that some run completes normally is one that the
builder takes to reach its exit (`Stmt.reachesExit_of_ends`), so what comes after
a statement that does not is never reached.  The points that are executed then
stand in blocks that the builder has entered, and those are apart from what it
reports.
-/
import Liveness.Proofs.Reports
import Liveness.Proofs.Runs

namespace Liveness

open Behaviour

/-! ### Where nothing runs -/

theorem Stmt.initial_sequence_ne_none {f : Fragment} (ss : List Stmt) (h : f.initial ≠ none) :
    (Stmt.sequence f ss).initial ≠ none := by
  induction ss generalizing f with
  | nil =>
    rw [Stmt.sequence]
    exact h
  | cons s rest ih =>
    rw [Stmt.sequence]
    split
    · refine ih ?_
      rw [Fragment.initial_andThen]
      exact fun hnone => h (Option.or_eq_none_iff.mp hnone).1
    · exact h

section Idle

variable {α : Type} {r : Reading α}

theorem Reading.within_idle (r : Reading α) (guarded : Bool) : r.within guarded idle = idle := by
  rw [Reading.within]
  split
  · funext t k
    apply propext
    refine or_iff_left ?_
    rintro ⟨-, x, -, t', k', hx, -⟩
    cases hx
  · rfl

theorem Stmt.runsFrom_eq_idle {ss : List Stmt} {f : Fragment} {guarded : Bool}
    {address : List Step} {i : Nat} (hr : f.reachesExit = true)
    (h : (Stmt.sequence f ss).initial = none)
    (hss : ∀ s ∈ ss, ∀ address, s.fragment.initial = none → s.runs r address = idle) :
    Stmt.runsFrom r guarded address i ss = idle := by
  induction ss generalizing i with
  | nil => rw [Stmt.runsFrom]
  | cons s rest ih =>
    rw [Stmt.sequence, if_pos hr] at h
    -- an entry of `s` would be the entry of the whole
    have hs : s.fragment.initial = none := by
      rcases hi : s.fragment.initial with - | entry
      · rfl
      · refine absurd h (Stmt.initial_sequence_ne_none rest ?_)
        rw [Fragment.initial_andThen, hi]
        cases f.initial <;> exact Option.some_ne_none _
    rw [Fragment.andThen_of_none s.offset hs] at h
    rw [Stmt.runsFrom, hss s List.mem_cons_self _ hs, Reading.within_idle, idle_andThen]
    exact ih h fun s' hs' => hss s' (List.mem_cons_of_mem s hs')

/-- Where the builder finds nothing to run, nothing is executed. -/
theorem Stmt.runs_eq_idle_of_blocks (s : Stmt)
    (ih : ∀ b ∈ s.blocks, ∀ guarded address, b.fragment.initial = none →
      b.runs r guarded address = idle) (address : List Step) (h : s.fragment.initial = none) :
    s.runs r address = idle := by
  rcases s with _ | _ | ⟨_, test, body⟩ | ⟨_, test, consequent, _ | alternate, folded⟩ |
    _ | _ | _ | ⟨_, block, handler, _ | finalizer, _⟩ | b | _
  case whileStmt =>
    rw [Stmt.fragment] at h
    split at h
    · cases h
    · rw [Fragment.initial_loop] at h
      cases h
  case tryStmt.none =>
    rw [Stmt.fragment, Fragment.initial_guarded] at h
    have hblock := (Option.or_eq_none_iff.mp h).1
    rw [Stmt.runs, ih block (by simp [blocks]) _ _ hblock, idle_caught]
  case tryStmt.some =>
    rw [Stmt.fragment, Fragment.initial_guarded] at h
    obtain ⟨hblock, hlast⟩ := Option.or_eq_none_iff.mp h
    rw [Stmt.runs, ih block (by simp [blocks]) _ _ hblock, idle_caught, closing_idle,
      ih finalizer (by simp [blocks]) _ _ hlast]
  case blockStmt =>
    rw [Stmt.fragment] at h
    rw [Stmt.runs, ih b (by simp [blocks]) _ _ h]
  case unsupported => rw [Stmt.runs]
  all_goals
    rw [Stmt.fragment] at h
    cases h

theorem Block.runs_eq_idle (b : Block) (guarded : Bool) (address : List Step)
    (h : b.fragment.initial = none) : b.runs r guarded address = idle := by
  refine Block.of_body
    (P := fun s => ∀ address, s.fragment.initial = none → s.runs r address = idle)
    (Q := fun b => ∀ guarded address, b.fragment.initial = none → b.runs r guarded address = idle)
    Stmt.runs_eq_idle_of_blocks ?_ b guarded address h
  rintro ⟨offset, body⟩ ih guarded address h
  rw [Block.fragment] at h
  rw [Block.runs]
  exact Stmt.runsFrom_eq_idle rfl h ih

end Idle

/-! ### Normal completion -/

section Normal

variable {α : Type} {r : Reading α}

theorem Reading.ends_point {address : List Step} {label : Label} {k : Completion}
    (h : (r.point address label k).Ends .normal) : k = .normal := by
  rcases ends_single.mp h with h | h
  · cases h
  · rcases List.mem_cons.mp h with h | h
    · exact h.symm
    · split at h
      · cases List.mem_singleton.mp h
      · cases h

theorem Reading.ends_within {guarded : Bool} {b : Behaviour α}
    (h : (r.within guarded b).Ends .normal) : b.Ends .normal := by
  rw [Reading.within] at h
  split at h
  · exact ends_leaping_normal.mp h
  · exact h

/-- If a block and its handler complete normally, the builder has labels at which they do. -/
theorem guardExits_ne_nil {block handler : Block} {b c : Behaviour α}
    (hb : b.Ends .normal → block.fragment.reachesExit = true)
    (hc : c.Ends .normal → handler.fragment.reachesExit = true)
    (hne : block.fragment.initial ≠ none) (h : (b.caught c).Ends .normal) :
    Fragment.guardExits block.fragment handler.fragment ≠ [] := by
  intro hnil
  obtain ⟨hexits, hhandler⟩ := Fragment.guardExits_eq_nil_iff.mp hnil
  rcases ends_chain.mp h with ⟨h, -⟩ | ⟨-, h⟩
  · exact (block.coherent.exits_iff hne).mpr (hb h) hexits
  · split at hhandler
    next =>
      -- an empty handler ends where it is entered
      exact Block.sources_ne_nil hne hhandler
    next hi =>
      have hhne : handler.fragment.initial ≠ none := fun hnone => hi (Fragment.isEmpty_iff.mpr hnone)
      exact (handler.coherent.exits_iff hhne).mpr (hc h) hhandler

theorem Stmt.reachesExit_of_ends_of_blocks (s : Stmt)
    (ih : ∀ b ∈ s.blocks, ∀ guarded address, (b.runs r guarded address).Ends .normal →
      b.fragment.reachesExit = true) (address : List Step)
    (h : (s.runs r address).Ends .normal) : s.fragment.reachesExit = true := by
  rcases s with _ | _ | ⟨_, test, body⟩ | ⟨_, test, consequent, _ | alternate, folded⟩ |
    _ | _ | _ | ⟨_, block, handler, _ | finalizer, _⟩ | b | _
  case whileStmt =>
    rw [Stmt.fragment]
    split
    · rfl
    · exact Fragment.reachesExit_loop _ _
  case ifStmt.none => rw [Stmt.fragment]; rfl
  case ifStmt.some =>
    rw [Stmt.runs] at h
    rcases ends_chain.mp h with ⟨-, hne⟩ | ⟨-, h⟩
    · exact absurd rfl hne
    rw [Stmt.fragment]
    rcases ends_either h with ⟨hd, h⟩ | ⟨hd, h⟩
    · have hconsequent := ih consequent (by simp [blocks]) _ _ h
      refine Fragment.reachesExit_choice ?_ hconsequent
      split <;> simp_all
    · have halternate := ih alternate (by simp [blocks]) _ _ h
      refine Fragment.reachesExit_choice ?_ halternate
      split <;> simp_all
  case throwStmt =>
    rw [Stmt.runs] at h
    cases Reading.ends_point h
  case breakStmt =>
    rw [Stmt.runs] at h
    cases Reading.ends_point h
  case continueStmt =>
    rw [Stmt.runs] at h
    cases Reading.ends_point h
  case tryStmt.none =>
    rw [Stmt.runs] at h
    rw [Stmt.fragment]
    rcases Decidable.em (block.fragment.initial = none) with hnone | hne
    · rw [Fragment.guarded_of_empty _ _ hnone]
      rfl
    · exact Fragment.reachesExit_guarded hne (guardExits_ne_nil (ih block (by simp [blocks]) _ _)
        (ih handler (by simp [blocks]) _ _) hne h) rfl
  case tryStmt.some =>
    rw [Stmt.runs] at h
    obtain ⟨hguarded, hlast⟩ := ends_closing_normal h
    have hfinalizer := ih finalizer (by simp [blocks]) _ _ hlast
    rw [Stmt.fragment]
    rcases Decidable.em (block.fragment.initial = none) with hnone | hne
    · rw [Fragment.guarded_of_empty _ _ hnone]
      exact hfinalizer
    · exact Fragment.reachesExit_guarded hne (guardExits_ne_nil (ih block (by simp [blocks]) _ _)
        (ih handler (by simp [blocks]) _ _) hne hguarded) hfinalizer
  case blockStmt =>
    rw [Stmt.runs] at h
    rw [Stmt.fragment]
    exact ih b (by simp [blocks]) _ _ h
  all_goals rw [Stmt.fragment]; rfl

theorem Stmt.reachesExit_sequence {ss : List Stmt} {f : Fragment} {guarded : Bool}
    {address : List Step} {i : Nat} (hf : f.reachesExit = true)
    (hss : ∀ s ∈ ss, ∀ address, (s.runs r address).Ends .normal → s.fragment.reachesExit = true)
    (h : (Stmt.runsFrom r guarded address i ss).Ends .normal) :
    (Stmt.sequence f ss).reachesExit = true := by
  induction ss generalizing f i with
  | nil =>
    rw [Stmt.sequence]
    exact hf
  | cons s rest ih =>
    rw [Stmt.runsFrom] at h
    rcases ends_chain.mp h with ⟨-, hne⟩ | ⟨hs, hrest⟩
    · exact absurd rfl hne
    have hexit := hss s List.mem_cons_self _ (Reading.ends_within hs)
    rw [Stmt.sequence, if_pos hf]
    exact ih (Fragment.reachesExit_andThen s.offset hf hexit)
      (fun s' hs' => hss s' (List.mem_cons_of_mem s hs')) hrest

/-- A statement that some run completes normally reaches its exit. -/
theorem Stmt.reachesExit_of_ends {s : Stmt} {address : List Step}
    (h : (s.runs r address).Ends .normal) : s.fragment.reachesExit = true := by
  refine Stmt.of_blocks
    (P := fun s => ∀ address, (s.runs r address).Ends .normal → s.fragment.reachesExit = true)
    (Q := fun b => ∀ guarded address, (b.runs r guarded address).Ends .normal →
      b.fragment.reachesExit = true)
    Stmt.reachesExit_of_ends_of_blocks ?_ s address h
  rintro ⟨offset, body⟩ ih guarded address h
  rw [Block.runs] at h
  rw [Block.fragment]
  exact Stmt.reachesExit_sequence rfl ih h

end Normal

/-! ### Where executed points stand -/

/-- How a run of the statement at an address comes to execute a point. -/
inductive Stmt.Visit (raising : Bool) (s : Stmt) (address : List Step) (pt : Point) : Prop
  /-- It is the statement's own point. -/
  | own : s.point? = some pt.label → pt.address = address → Visit raising s address pt
  /-- It stands in a block that is entered. -/
  | inside {x b guarded} : s.Enters x b →
      (b.runs (.strict raising) guarded (address ++ [x])).Visits pt → Visit raising s address pt
  /-- Bare braces are the block between them. -/
  | braces {b} : s = .blockStmt b → (b.runs (.strict raising) false address).Visits pt →
      Visit raising s address pt

section Visits

variable {raising : Bool} {s : Stmt} {b : Block} {address : List Step} {pt : Point}

/-- A handler is entered only if there is something in its block to raise. -/
theorem Stmt.visit_of_caught {offset : Int} {block handler : Block} {finalizer : Option Block}
    {param : Json}
    (h : ((block.runs (.strict raising) true (address ++ [.child "block"])).caught
      (handler.runs (.strict raising) false (address ++ [.child "handler"]))).Visits pt) :
    Visit raising (.tryStmt offset block handler finalizer param) address pt := by
  rcases visits_chain h with h | ⟨hends, h⟩
  · exact .inside .guarded h
  · refine .inside (.handler fun hnone => ?_) h
    rw [Block.runs_eq_idle block _ _ hnone] at hends
    cases ends_idle hends

theorem Stmt.visit_of_point {l : Label} {k : Completion} (hl : s.point? = some l)
    (h : ((Reading.strict raising).point address l k).Visits pt) : s.Visit raising address pt := by
  obtain rfl : pt = ⟨address, l⟩ := visits_single h
  exact .own hl rfl

theorem Stmt.visit (h : (s.runs (.strict raising) address).Visits pt) :
    s.Visit raising address pt := by
  rcases s with _ | _ | ⟨_, test, body⟩ | ⟨_, test, consequent, _ | alternate, folded⟩ |
    _ | _ | _ | ⟨_, block, handler, _ | finalizer, _⟩ | b | _
  case whileStmt =>
    rw [Stmt.runs] at h
    rcases visits_loop h with rfl | ⟨ht, h⟩
    · exact .own rfl rfl
    · exact .inside (.whileBody ht) h
  case ifStmt.none =>
    rw [Stmt.runs] at h
    rcases visits_chain h with h | ⟨-, h⟩
    · exact Stmt.visit_of_point rfl h
    · rcases visits_either h with ⟨hd, h⟩ | ⟨-, h⟩
      · exact .inside (.consequent hd) h
      · exact absurd h not_visits_idle
  case ifStmt.some =>
    rw [Stmt.runs] at h
    rcases visits_chain h with h | ⟨-, h⟩
    · exact Stmt.visit_of_point rfl h
    · rcases visits_either h with ⟨hd, h⟩ | ⟨hd, h⟩
      · exact .inside (.consequent hd) h
      · exact .inside (.alternate hd) h
  case tryStmt.none =>
    rw [Stmt.runs] at h
    exact Stmt.visit_of_caught h
  case tryStmt.some =>
    rw [Stmt.runs] at h
    rcases visits_closing h with h | h
    · exact Stmt.visit_of_caught h
    · exact .inside .finalizer h
  case blockStmt =>
    rw [Stmt.runs] at h
    exact .braces rfl h
  case unsupported =>
    rw [Stmt.runs] at h
    exact absurd h not_visits_idle
  all_goals
    rw [Stmt.runs] at h
    exact Stmt.visit_of_point rfl h

/-- A point executed in a block stands in one of its statements. -/
theorem Stmt.visits_runsFrom {ss : List Stmt} {guarded : Bool} {i : Nat}
    (h : (Stmt.runsFrom (.strict raising) guarded address i ss).Visits pt) :
    ∃ (j : Nat) (s : Stmt), ss[j]? = some s ∧
      (s.runs (.strict raising) (address ++ [.item (i + j)])).Visits pt := by
  induction ss generalizing i with
  | nil =>
    rw [Stmt.runsFrom] at h
    exact absurd h not_visits_idle
  | cons s rest ih =>
    rw [Stmt.runsFrom] at h
    rcases visits_chain h with h | ⟨-, h⟩
    · exact ⟨0, s, rfl, h⟩
    · obtain ⟨j, s', hs', h⟩ := ih h
      rw [Nat.add_right_comm] at h
      exact ⟨j + 1, s', hs', h⟩

/-- A point executed in a statement has an address inside it. -/
theorem Stmt.prefix_of_visits (h : (s.runs (.strict raising) address).Visits pt) :
    address <+: pt.address := by
  refine Stmt.of_blocks
    (P := fun s => ∀ address, (s.runs (.strict raising) address).Visits pt → address <+: pt.address)
    (Q := fun b => ∀ guarded address, (b.runs (.strict raising) guarded address).Visits pt →
      address <+: pt.address) ?_ ?_ s address h
  · intro s ih address h
    cases Stmt.visit h with
    | own _ ha =>
      subst ha
      exact List.prefix_refl _
    | inside he h => exact prefix_of_snoc (ih _ he.mem_blocks _ _ h)
    | @braces b hs h => exact ih b (by rw [hs]; exact List.mem_singleton_self b) _ _ h
  · rintro ⟨offset, body⟩ ih guarded address h
    rw [Block.runs] at h
    obtain ⟨j, s, hs, h⟩ := Stmt.visits_runsFrom h
    exact prefix_of_snoc (prefix_of_snoc (ih s (List.mem_of_getElem? hs) _ h))

theorem Stmt.prefix_of_visits_runsFrom {ss : List Stmt} {guarded : Bool} {i : Nat}
    (h : (Stmt.runsFrom (.strict raising) guarded address i ss).Visits pt) :
    ∃ j, address ++ [.item (i + j)] <+: pt.address := by
  obtain ⟨j, s, -, h⟩ := Stmt.visits_runsFrom h
  exact ⟨j, Stmt.prefix_of_visits h⟩

theorem Block.prefix_of_visits {guarded : Bool}
    (h : (b.runs (.strict raising) guarded address).Visits pt) : address <+: pt.address := by
  obtain ⟨offset, body⟩ := b
  rw [Block.runs] at h
  obtain ⟨j, hj⟩ := Stmt.prefix_of_visits_runsFrom h
  exact prefix_of_snoc (prefix_of_snoc hj)

/-! ### Executed points and reports are apart -/

/-- A point is not inside what the finding of a report is about. -/
def Report.Avoids (r : Report) (pt : Point) : Prop :=
  r.event.finding? ≠ none → ¬ r.address <+: pt.address

theorem Stmt.avoids_sequence {ss : List Stmt} {f : Fragment} {guarded : Bool} {i : Nat}
    {r : Report} (hf : f.reachesExit = true)
    (hss : ∀ s ∈ ss, ∀ address, (s.runs (.strict raising) address).Visits pt →
      r ∈ s.reports address → r.Avoids pt)
    (h : (Stmt.runsFrom (.strict raising) guarded address i ss).Visits pt)
    (hr : r ∈ Stmt.sequenceReports address i f ss) : r.Avoids pt := by
  induction ss generalizing f i with
  | nil => cases hr
  | cons s rest ih =>
    rw [Stmt.runsFrom] at h
    rw [Stmt.sequenceReports, if_pos hf] at hr
    rcases visits_chain h with hs | ⟨hends, hrest⟩ <;> rcases List.mem_append.mp hr with hr | hr
    · exact hss s List.mem_cons_self _ hs hr
    · -- the point is in this statement and the report is about a later one
      intro _ hpre
      obtain ⟨j, hj⟩ := Stmt.prefix_of_mem_sequenceReports hr
      have hitem := eq_of_snoc_prefixes (hj.trans hpre) (Stmt.prefix_of_visits hs)
      simp only [Step.item.injEq] at hitem
      omega
    · -- the report is about this statement and the point is in a later one
      intro _ hpre
      obtain ⟨j, hj⟩ := Stmt.prefix_of_visits_runsFrom hrest
      have hitem := eq_of_snoc_prefixes ((Stmt.prefix_of_mem_reports hr).trans hpre) hj
      simp only [Step.item.injEq] at hitem
      omega
    · -- both are later: some run gets past `s`, so the builder goes on as well
      have hexit : s.fragment.reachesExit = true :=
        Stmt.reachesExit_of_ends (Reading.ends_within hends)
      exact ih (Fragment.reachesExit_andThen s.offset hf hexit)
        (fun s' hs' => hss s' (List.mem_cons_of_mem s hs')) hrest hr

theorem Stmt.avoids_of_blocks {r : Report} (s : Stmt)
    (ih : ∀ b ∈ s.blocks, ∀ guarded address, (b.runs (.strict raising) guarded address).Visits pt →
      r ∈ b.reports address → r.Avoids pt)
    (address : List Step) (h : (s.runs (.strict raising) address).Visits pt)
    (hr : r ∈ s.reports address) : r.Avoids pt := by
  intro hfinding hpre
  cases Stmt.visit h with
  | own hpoint ha =>
    -- findings about `s` are all about parts below its address
    rw [ha] at hpre
    cases Stmt.origin hr with
    | dropped _ hr =>
      rw [(Report.mem_drop hr).2] at hpre
      exact not_snoc_prefix_self hpre
    | entered _ hr => exact not_snoc_prefix_self ((Block.prefix_of_mem_reports hr).trans hpre)
    | braces hs _ =>
      rw [hs] at hpoint
      cases hpoint
    | skipped _ hr =>
      rw [hr] at hfinding
      exact hfinding rfl
  | inside he h =>
    have hpt := Block.prefix_of_visits h
    cases Stmt.origin hr with
    | dropped hd hr =>
      rw [(Report.mem_drop hr).2] at hpre
      exact he.ne_step hd (eq_of_snoc_prefixes hpt hpre)
    | entered he' hr =>
      obtain rfl := eq_of_snoc_prefixes hpt ((Block.prefix_of_mem_reports hr).trans hpre)
      obtain rfl := he.unique he'
      exact ih _ he.mem_blocks _ _ h hr hfinding hpre
    | braces hs _ =>
      rw [hs] at he
      cases he
    | skipped _ hr =>
      rw [hr] at hfinding
      exact hfinding rfl
  | braces hs h =>
    subst hs
    rw [Stmt.reports] at hr
    exact ih _ (List.mem_singleton_self _) _ _ h hr hfinding hpre

theorem Block.avoids_of_body {r : Report} (b : Block)
    (ih : ∀ s ∈ b.body, ∀ address, (s.runs (.strict raising) address).Visits pt →
      r ∈ s.reports address → r.Avoids pt)
    (guarded : Bool) (address : List Step)
    (h : (b.runs (.strict raising) guarded address).Visits pt) (hr : r ∈ b.reports address) :
    r.Avoids pt := by
  obtain ⟨offset, body⟩ := b
  rw [Block.runs] at h
  rw [Block.reports] at hr
  exact Stmt.avoids_sequence rfl ih h hr

theorem Program.avoids {p : Program} {r : Report} (h : (p.runs (.strict raising)).Visits pt)
    (hr : r ∈ p.reports) : r.Avoids pt :=
  Block.of_body Stmt.avoids_of_blocks Block.avoids_of_body p.block false [] h hr

/-! ### Executed points are points of the program -/

/-- At the address of a point stands a statement with a point of that label. -/
def Point.Located (p : Program) (pt : Point) : Prop :=
  ∃ s, (Part.program p).at? pt.address = some (.ofStmt s) ∧ s.point? = some pt.label

theorem Stmt.located_of_blocks {p : Program} (s : Stmt)
    (ih : ∀ b ∈ s.blocks, ∀ guarded address,
      (Part.program p).at? (address ++ [.child "body"]) = some (Part.ofBody b.body) →
      (b.runs (.strict raising) guarded address).Visits pt → pt.Located p)
    (address : List Step) (hat : (Part.program p).at? address = some (.ofStmt s))
    (h : (s.runs (.strict raising) address).Visits pt) : pt.Located p := by
  cases Stmt.visit h with
  | own hpoint ha => exact ⟨s, by rw [ha, hat], hpoint⟩
  | inside he h => exact ih _ he.mem_blocks _ _ (he.at?_body hat) h
  | braces hs h =>
    subst hs
    refine ih _ (List.mem_singleton_self _) _ _ ?_ h
    rw [Part.at?_snoc, hat]
    rfl

theorem Block.located_point_of_body {p : Program} (b : Block)
    (ih : ∀ s ∈ b.body, ∀ address, (Part.program p).at? address = some (.ofStmt s) →
      (s.runs (.strict raising) address).Visits pt → pt.Located p)
    (guarded : Bool) (address : List Step)
    (hat : (Part.program p).at? (address ++ [.child "body"]) = some (Part.ofBody b.body))
    (h : (b.runs (.strict raising) guarded address).Visits pt) : pt.Located p := by
  obtain ⟨offset, body⟩ := b
  rw [Block.runs] at h
  obtain ⟨j, s, hs, h⟩ := Stmt.visits_runsFrom h
  rw [Nat.zero_add] at h
  exact ih s (List.mem_of_getElem? hs) _ (Stmt.at?_item hat hs) h

theorem Program.located_visits {p : Program} (h : (p.runs (.strict raising)).Visits pt) :
    pt.Located p :=
  Block.of_body Stmt.located_of_blocks Block.located_point_of_body p.block false [] rfl h

end Visits

/-- **Unreachable code is never executed.**  The reports are what the builder notices, each about
the part at its address, and no run executes a point inside a part that a finding is about, even
if every point may raise. -/
theorem Program.reported_never_executed (p : Program) :
    p.reports.map (·.event) = p.events ∧ (∀ r ∈ p.reports, r.Located p) ∧
    ∀ t k, p.runs (.strict true) t k → ∀ pt ∈ t, pt.Located p ∧
      ∀ r ∈ p.reports, r.event.finding? ≠ none → ¬ r.address <+: pt.address := by
  refine ⟨p.reports_events, p.located_reports, fun t k h pt hpt => ?_⟩
  have hvisits : (p.runs (.strict true)).Visits pt := ⟨t, k, h, hpt⟩
  exact ⟨Program.located_visits hvisits, fun r hr => Program.avoids hvisits hr⟩

/-- `while (true) { try { throw e; lost(); } catch (e) { log(e); } finally { break; } after(); }
if (false) { never(); }` -/
def abandoned : Program where
  offset := 0
  body :=
    [.whileStmt 0 (.literal 7 (.bool true) (.str "true")) ⟨13,
      [.tryStmt 15
        ⟨19, [.throwStmt 21 (some (.identifier 27 "e")),
          .exprStmt 30 (.call 30 (.identifier 30 "lost") [])]⟩
        ⟨50, [.exprStmt 52 (.call 52 (.identifier 52 "log") [some (.identifier 56 "e")])]⟩
        (some ⟨70, [.breakStmt 72 .null]⟩) (.str "e"),
      .exprStmt 81 (.call 81 (.identifier 81 "after") [])]⟩,
    .ifStmt 92 (.literal 96 (.bool false) (.str "false"))
      ⟨103, [.exprStmt 105 (.call 105 (.identifier 105 "never") [])]⟩ none false]

/-- Three calls are reported.  Some run raises, is handled, and is made to leave the loop on the
way out; no run makes one of the three calls. -/
theorem abandoned_never_executed :
    abandoned.reports.map (fun r => (r.address, r.event.finding?)) =
      [([.child "body", .item 0, .child "body", .child "body", .item 0, .child "block",
          .child "body", .item 1], some (.unreachable "ExpressionStatement" 30)),
        ([.child "body", .item 0, .child "body", .child "body", .item 1],
          some (.unreachable "ExpressionStatement" 81)),
        ([.child "body", .item 1, .child "consequent"], some (.deadBranch "if consequent" 103))] ∧
    (∃ t, abandoned.runs (.strict true) t .normal ∧ t.map (·.label) = [7, 21, 52, 72, 96]) ∧
    ∀ t k, abandoned.runs (.strict true) t k → ∀ pt ∈ t, ∀ r ∈ abandoned.reports,
      ¬ r.address <+: pt.address := by
  have hfindings : abandoned.reports.all (·.event.finding?.isSome) = true := by decide +kernel
  refine ⟨by decide +kernel, ⟨
    [⟨[.child "body", .item 0], 7⟩,
      ⟨[.child "body", .item 0, .child "body", .child "body", .item 0, .child "block",
        .child "body", .item 0], 21⟩,
      ⟨[.child "body", .item 0, .child "body", .child "body", .item 0, .child "handler",
        .child "body", .item 0], 52⟩,
      ⟨[.child "body", .item 0, .child "body", .child "body", .item 0, .child "finalizer",
        .child "body", .item 0], 72⟩,
      ⟨[.child "body", .item 1], 96⟩], ?_, rfl⟩, ?_⟩
  · refine Or.inr ⟨[_, _, _, _], [_], rfl, ?_, Or.inr ⟨[_], [], rfl, ?_, rfl, rfl⟩⟩
    · show Loop _ _ _ _ ([_] ++ [_, _, _]) _
      refine .leave (k := .broke) ⟨rfl, Or.inr (by decide)⟩ (by decide) ?_ rfl
      refine Or.inl ⟨Or.inr ⟨[_, _], .normal, [_], .broke, rfl, ?_, by decide, ?_, rfl⟩, by decide⟩
      · refine Or.inr ⟨[_], [_], rfl, ?_, ?_⟩
        · exact Or.inl ⟨⟨rfl, Or.inr (by decide)⟩, by decide⟩
        · exact Or.inr ⟨[_], [], rfl, ⟨rfl, Or.inr (by decide)⟩, rfl, rfl⟩
      · exact Or.inl ⟨⟨rfl, Or.inr (by decide)⟩, by decide⟩
    · exact Or.inr ⟨[_], [], rfl, ⟨rfl, Or.inr (by decide)⟩, Or.inr ⟨Or.inr (by decide), rfl, rfl⟩⟩
  · intro t k h pt hpt r hr
    obtain ⟨-, havoids⟩ := (Program.reported_never_executed abandoned).2.2 t k h pt hpt
    refine havoids r hr fun hnone => ?_
    have hsome := List.all_eq_true.mp hfindings r hr
    rw [hnone] at hsome
    cases hsome

end Liveness
