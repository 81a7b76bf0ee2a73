/-
Liveness/Proofs/DeadEdits.lean

Edits of dead code.  The builder skips the statements that it finds unreachable
and the blocks that no run enters, but the reads and writes of a program are
collected from the whole tree.  An edit replaces skipped parts: a statement by
one of the same kind at the same offset, a block by another one at the same
offset that is not empty either.  What is inside them is free, as long as no
expression there starts at a label of the graph.

`Stmt.Patched` is the relation between a statement and an edit of it.  Along it
fragments and events are the same, and so are the accesses at the labels of the
graph (`Stmt.Alike`).  The tables of reads and writes then agree on those labels,
which are the nodes of the equations and the only places of dead assignments.
-/
import Liveness.Proofs.DeadAssignments
import Liveness.Proofs.Fragments
import Liveness.Proofs.Renamings

namespace Liveness

/-! ### Edits -/

/-- All expressions of a statement, those of statements nested in it left out. -/
def Stmt.expressions : Stmt → List Expr
  | .exprStmt _ e => e.subexpressions
  | .declStmt _ declarators =>
    declarators.flatMap fun d => d.init.toList.flatMap (·.subexpressions)
  | .throwStmt _ argument => argument.toList.flatMap (·.subexpressions)
  | .whileStmt _ test _ | .ifStmt _ test _ _ _ => test.subexpressions
  | _ => []

/-- No expression in some statements, at any depth, starts at one of some labels. -/
def Stmt.Quiet (labels : List Label) (ss : List Stmt) : Prop :=
  ∀ s ∈ Stmt.flatten ss, ∀ e ∈ s.expressions, e.offset ∉ labels

instance (labels : List Label) (ss : List Stmt) : Decidable (Stmt.Quiet labels ss) :=
  inferInstanceAs (Decidable (∀ s ∈ Stmt.flatten ss, ∀ e ∈ s.expressions, e.offset ∉ labels))

/-- An unreachable statement and one that may stand in its place. -/
structure Stmt.Replaced (labels : List Label) (s s' : Stmt) : Prop where
  kind : s'.kind = s.kind
  offset : s'.offset = s.offset
  quiet : Stmt.Quiet labels [s]
  quiet' : Stmt.Quiet labels [s']

/-- A dead block and one that may stand in its place. -/
structure Block.Replaced (labels : List Label) (b b' : Block) : Prop where
  offset : b'.offset = b.offset
  filled : b.body ≠ []
  filled' : b'.body ≠ []
  quiet : Stmt.Quiet labels b.body
  quiet' : Stmt.Quiet labels b'.body

mutual
/-- The second statement is the first with some parts replaced that the builder skips. -/
inductive Stmt.Patched (labels : List Label) : Stmt → Stmt → Prop
  | same (s : Stmt) : Stmt.Patched labels s s
  | whileStmt {offset test body body'} :
      Block.Patched labels (test.truth? = some false) body body' →
      Stmt.Patched labels (.whileStmt offset test body) (.whileStmt offset test body')
  | ifThen {offset test consequent consequent' folded} :
      Block.Patched labels (Stmt.decided? folded test = some false) consequent consequent' →
      Stmt.Patched labels (.ifStmt offset test consequent none folded)
        (.ifStmt offset test consequent' none folded)
  | ifElse {offset test consequent consequent' alternate alternate' folded} :
      Block.Patched labels (Stmt.decided? folded test = some false) consequent consequent' →
      Block.Patched labels (Stmt.decided? folded test = some true) alternate alternate' →
      Stmt.Patched labels (.ifStmt offset test consequent (some alternate) folded)
        (.ifStmt offset test consequent' (some alternate') folded)
  | tryCatch {offset block block' handler handler' param} :
      Block.Patched labels False block block' →
      Block.Patched labels (block.fragment.initial = none) handler handler' →
      Stmt.Patched labels (.tryStmt offset block handler none param)
        (.tryStmt offset block' handler' none param)
  | tryFinally {offset block block' handler handler' finalizer finalizer' param} :
      Block.Patched labels False block block' →
      Block.Patched labels (block.fragment.initial = none) handler handler' →
      Block.Patched labels False finalizer finalizer' →
      Stmt.Patched labels (.tryStmt offset block handler (some finalizer) param)
        (.tryStmt offset block' handler' (some finalizer') param)
  | braces {block block'} :
      Block.Patched labels False block block' →
      Stmt.Patched labels (.blockStmt block) (.blockStmt block')
/-- The second block is the first with some parts replaced that the builder skips, or is put in
its place if the builder drops it. -/
inductive Block.Patched (labels : List Label) : (dropped : Prop) → Block → Block → Prop
  | same {dropped} (b : Block) : Block.Patched labels dropped b b
  | entered {dropped offset body body'} :
      ¬ dropped → Stmt.PatchedFrom labels .empty body body' →
      Block.Patched labels dropped ⟨offset, body⟩ ⟨offset, body'⟩
  | replaced {dropped b b'} :
      dropped → Block.Replaced labels b b' → Block.Patched labels dropped b b'
/-- The same for the statements of a block whose first statements gave a fragment. -/
inductive Stmt.PatchedFrom (labels : List Label) : Fragment → List Stmt → List Stmt → Prop
  | nil {f} : Stmt.PatchedFrom labels f [] []
  | reached {f s s' rest rest'} :
      f.reachesExit = true → Stmt.Patched labels s s' →
      Stmt.PatchedFrom labels (f.andThen s.offset s.fragment) rest rest' →
      Stmt.PatchedFrom labels f (s :: rest) (s' :: rest')
  | kept {f s rest rest'} :
      f.reachesExit = false → Stmt.PatchedFrom labels f rest rest' →
      Stmt.PatchedFrom labels f (s :: rest) (s :: rest')
  | replaced {f s s' rest rest'} :
      f.reachesExit = false → Stmt.Replaced labels s s' →
      Stmt.PatchedFrom labels f rest rest' →
      Stmt.PatchedFrom labels f (s :: rest) (s' :: rest')
end

/-- The second program is the first with some parts replaced that the builder skips, none of them
with an expression at a label of the graph. -/
def Program.Patched (p p' : Program) : Prop :=
  p'.offset = p.offset ∧ Stmt.PatchedFrom p.graph.labels .empty p.body p'.body

/-! ### Accesses at labels -/

/-- The accesses of some statements, at any depth, that are at one of some labels. -/
def Stmt.accessesAt (labels : List Label) (observers : List (Option String)) (ss : List Stmt) :
    List Access :=
  ((Stmt.flatten ss).flatMap (·.accesses observers)).filter (·.label ∈ labels)

section Accesses

variable {labels : List Label} {observers : List (Option String)}

theorem Expr.label_of_access? {e : Expr} {a : Access} (h : e.access? observers = some a) :
    a.label = e.offset := by
  cases e with
  | identifier | literal | member | operation => cases h
  | call => cases h; rfl
  | assignment _ _ target _ => cases target <;> cases h <;> rfl
  | update _ _ target => cases target <;> cases h <;> rfl

/-- An access of an expression is at the offset of one of its parts. -/
theorem Expr.exists_of_mem_accesses {e : Expr} {a : Access} (h : a ∈ e.accesses observers) :
    ∃ part ∈ e.subexpressions, part.offset = a.label := by
  obtain ⟨part, hpart, ha⟩ := List.mem_filterMap.mp h
  exact ⟨part, hpart, (Expr.label_of_access? ha).symm⟩

theorem Expr.exists_of_mem_accesses? {e : Option Expr} {a : Access}
    (h : a ∈ Expr.accesses? observers e) :
    ∃ part ∈ e.toList.flatMap (·.subexpressions), part.offset = a.label := by
  cases e with
  | none => cases h
  | some e =>
    obtain ⟨part, hpart, hl⟩ := Expr.exists_of_mem_accesses h
    exact ⟨part, List.mem_flatMap.mpr ⟨e, List.mem_singleton_self e, hpart⟩, hl⟩

theorem Expr.mem_subexpressions_self (e : Expr) : e ∈ e.subexpressions := by
  cases e <;> simp [Expr.subexpressions]

theorem Expr.exists_of_mem_testAccesses {test : Expr} {a : Access}
    (h : a ∈ test.testAccesses observers) :
    ∃ part ∈ test.subexpressions, part.offset = a.label := by
  rcases List.mem_cons.mp h with rfl | h
  · exact ⟨test, test.mem_subexpressions_self, rfl⟩
  · exact Expr.exists_of_mem_accesses h

/-- An access of a statement is at the offset of one of its expressions. -/
theorem Stmt.exists_of_mem_accesses {s : Stmt} {a : Access} (h : a ∈ s.accesses observers) :
    ∃ e ∈ s.expressions, e.offset = a.label := by
  cases s with
  | exprStmt _ e => exact Expr.exists_of_mem_accesses h
  | declStmt _ declarators =>
    obtain ⟨d, hd, ha⟩ := List.mem_flatMap.mp h
    obtain ⟨part, hpart, hl⟩ := Expr.exists_of_mem_accesses? ha
    exact ⟨part, List.mem_flatMap.mpr ⟨d, hd, hpart⟩, hl⟩
  | throwStmt => exact Expr.exists_of_mem_accesses? h
  | whileStmt => exact Expr.exists_of_mem_testAccesses h
  | ifStmt => exact Expr.exists_of_mem_testAccesses h
  | breakStmt | continueStmt | tryStmt | blockStmt | unsupported => cases h

/-- Statements without an expression at a label have no access there. -/
theorem Stmt.Quiet.accessesAt {ss : List Stmt} (h : Stmt.Quiet labels ss) :
    Stmt.accessesAt labels observers ss = [] := by
  refine List.filter_eq_nil_iff.mpr fun a ha hl => ?_
  obtain ⟨s, hs, ha⟩ := List.mem_flatMap.mp ha
  obtain ⟨e, he, hoffset⟩ := Stmt.exists_of_mem_accesses ha
  refine h s hs e he ?_
  rw [hoffset]
  exact of_decide_eq_true hl

theorem Stmt.accessesAt_cons (s : Stmt) (rest : List Stmt) :
    Stmt.accessesAt labels observers (s :: rest) =
      Stmt.accessesAt labels observers [s] ++ Stmt.accessesAt labels observers rest := by
  simp [Stmt.accessesAt, Stmt.flatten]

/-- The accesses of a statement are its own and those of its blocks. -/
theorem Stmt.accessesAt_singleton (s : Stmt) :
    Stmt.accessesAt labels observers [s] =
      (s.accesses observers).filter (·.label ∈ labels) ++
        s.blocks.flatMap fun b => Stmt.accessesAt labels observers b.body := by
  have hbody : ∀ b : Block, b.statements = Stmt.flatten b.body := fun b => by cases b; rfl
  rcases s with _ | _ | _ | ⟨_, _, _, _ | _, _⟩ | _ | _ | _ | ⟨_, _, _, _ | _, _⟩ | _ | _ <;>
    simp [Stmt.accessesAt, Stmt.flatten, Stmt.nested, Stmt.blocks, hbody]

end Accesses

/-! ### What an edit leaves alone -/

/-- Two statements that the analysis cannot tell apart, if only accesses at some labels count. -/
structure Stmt.Alike (labels : List Label) (observers : List (Option String)) (s s' : Stmt) :
    Prop where
  offset : s'.offset = s.offset
  fragment : s'.fragment = s.fragment
  events : s'.events = s.events
  accesses : Stmt.accessesAt labels observers [s'] = Stmt.accessesAt labels observers [s]

/-- The same for two blocks; if they are dropped, nothing else is asked of what is in them. -/
structure Block.Alike (labels : List Label) (observers : List (Option String)) (dropped : Prop)
    (b b' : Block) : Prop where
  offset : b'.offset = b.offset
  drop : ∀ region, Event.drop region b' = Event.drop region b
  fragment : ¬ dropped → b'.fragment = b.fragment
  events : ¬ dropped → b'.events = b.events
  accesses : Stmt.accessesAt labels observers b'.body = Stmt.accessesAt labels observers b.body

/-- The same for the statements of a block from some place on. -/
structure Stmt.AlikeFrom (labels : List Label) (observers : List (Option String)) (f : Fragment)
    (ss ss' : List Stmt) : Prop where
  nil_iff : ss' = [] ↔ ss = []
  sequence : Stmt.sequence f ss' = Stmt.sequence f ss
  events : Stmt.sequenceEvents f ss' = Stmt.sequenceEvents f ss
  accesses : Stmt.accessesAt labels observers ss' = Stmt.accessesAt labels observers ss

section Alike

variable {labels : List Label} {observers : List (Option String)}

theorem Stmt.alike_whileStmt {offset : Int} {test : Expr} {body body' : Block}
    (h : Block.Alike labels observers (test.truth? = some false) body body') :
    Stmt.Alike labels observers (.whileStmt offset test body) (.whileStmt offset test body') where
  offset := rfl
  fragment := by
    rw [Stmt.fragment, Stmt.fragment]
    split
    · rfl
    · next ht => rw [h.fragment ht]
  events := by
    rw [Stmt.events, Stmt.events]
    split
    · exact h.drop _
    · next ht => exact h.events ht
  accesses := by
    simp only [Stmt.accessesAt_singleton, Stmt.accesses, Stmt.blocks, List.flatMap_cons,
      List.flatMap_nil, h.accesses]

theorem Stmt.alike_ifThen {offset : Int} {test : Expr} {consequent consequent' : Block}
    {folded : Bool}
    (h : Block.Alike labels observers (Stmt.decided? folded test = some false)
      consequent consequent') :
    Stmt.Alike labels observers (.ifStmt offset test consequent none folded)
      (.ifStmt offset test consequent' none folded) where
  offset := rfl
  fragment := by
    rw [Stmt.fragment, Stmt.fragment]
    rcases hd : Stmt.decided? folded test with - | - | -
    · simp only [h.fragment (by simp [hd])]
    · rfl
    · simp only [h.fragment (by simp [hd])]
  events := by
    rw [Stmt.events, Stmt.events]
    rcases hd : Stmt.decided? folded test with - | - | -
    · exact h.events (by simp [hd])
    · exact h.drop _
    · exact h.events (by simp [hd])
  accesses := by
    simp only [Stmt.accessesAt_singleton, Stmt.accesses, Stmt.blocks, Option.toList_none,
      List.flatMap_cons, List.flatMap_nil, h.accesses]

theorem Stmt.alike_ifElse {offset : Int} {test : Expr}
    {consequent consequent' alternate alternate' : Block} {folded : Bool}
    (hc : Block.Alike labels observers (Stmt.decided? folded test = some false)
      consequent consequent')
    (ha : Block.Alike labels observers (Stmt.decided? folded test = some true)
      alternate alternate') :
    Stmt.Alike labels observers (.ifStmt offset test consequent (some alternate) folded)
      (.ifStmt offset test consequent' (some alternate') folded) where
  offset := rfl
  fragment := by
    rw [Stmt.fragment, Stmt.fragment]
    rcases hd : Stmt.decided? folded test with - | - | -
    · simp only [hc.fragment (by simp [hd]), ha.fragment (by simp [hd])]
    · simp only [ha.fragment (by simp [hd])]
    · simp only [hc.fragment (by simp [hd])]
  events := by
    rw [Stmt.events, Stmt.events]
    rcases hd : Stmt.decided? folded test with - | - | -
    · simp only [hc.events (by simp [hd]), ha.events (by simp [hd])]
    · simp only [hc.drop, ha.events (by simp [hd])]
    · simp only [ha.drop, hc.events (by simp [hd])]
  accesses := by
    simp only [Stmt.accessesAt_singleton, Stmt.accesses, Stmt.blocks, Option.toList_some,
      List.flatMap_cons, List.flatMap_nil, hc.accesses, ha.accesses]

section Guarded

variable {offset : Int} {block block' handler handler' : Block} {param : Json}

/-- A handler counts only if something runs in the block that it guards. -/
theorem Block.Alike.guarded (hb : Block.Alike labels observers False block block')
    (hh : Block.Alike labels observers (block.fragment.initial = none) handler handler')
    (finalizer : Fragment) :
    Fragment.guarded block'.fragment handler'.fragment finalizer =
      Fragment.guarded block.fragment handler.fragment finalizer := by
  rw [hb.fragment not_false]
  by_cases hi : block.fragment.initial = none
  · rw [Fragment.guarded_of_empty _ _ hi, Fragment.guarded_of_empty _ _ hi]
  · rw [hh.fragment hi]

theorem Block.Alike.handler_events (hb : Block.Alike labels observers False block block')
    (hh : Block.Alike labels observers (block.fragment.initial = none) handler handler') :
    (if block'.fragment.isEmpty then Event.drop .catchClause handler' else handler'.events) =
      if block.fragment.isEmpty then Event.drop .catchClause handler else handler.events := by
  rw [hb.fragment not_false]
  split
  · exact hh.drop _
  · next hi => exact hh.events fun hnone => hi (Fragment.isEmpty_iff.mpr hnone)

theorem Stmt.alike_tryCatch (hb : Block.Alike labels observers False block block')
    (hh : Block.Alike labels observers (block.fragment.initial = none) handler handler') :
    Stmt.Alike labels observers (.tryStmt offset block handler none param)
      (.tryStmt offset block' handler' none param) where
  offset := rfl
  fragment := by
    rw [Stmt.fragment, Stmt.fragment]
    exact hb.guarded hh .empty
  events := by
    rw [Stmt.events, Stmt.events, hb.events not_false, hb.handler_events hh]
  accesses := by
    simp only [Stmt.accessesAt_singleton, Stmt.accesses, Stmt.blocks, Option.toList_none,
      List.flatMap_cons, List.flatMap_nil, hb.accesses, hh.accesses]

theorem Stmt.alike_tryFinally {finalizer finalizer' : Block}
    (hb : Block.Alike labels observers False block block')
    (hh : Block.Alike labels observers (block.fragment.initial = none) handler handler')
    (hf : Block.Alike labels observers False finalizer finalizer') :
    Stmt.Alike labels observers (.tryStmt offset block handler (some finalizer) param)
      (.tryStmt offset block' handler' (some finalizer') param) where
  offset := rfl
  fragment := by
    rw [Stmt.fragment, Stmt.fragment, hf.fragment not_false]
    exact hb.guarded hh _
  events := by
    rw [Stmt.events, Stmt.events, hb.events not_false, hf.events not_false, hb.handler_events hh]
  accesses := by
    simp only [Stmt.accessesAt_singleton, Stmt.accesses, Stmt.blocks, Option.toList_some,
      List.flatMap_cons, List.flatMap_nil, hb.accesses, hh.accesses, hf.accesses]

theorem Stmt.alike_braces (hb : Block.Alike labels observers False block block') :
    Stmt.Alike labels observers (.blockStmt block) (.blockStmt block') where
  offset := hb.offset
  fragment := by
    rw [Stmt.fragment, Stmt.fragment]
    exact hb.fragment not_false
  events := by
    rw [Stmt.events, Stmt.events]
    exact hb.events not_false
  accesses := by
    simp only [Stmt.accessesAt_singleton, Stmt.accesses, Stmt.blocks, List.flatMap_cons,
      List.flatMap_nil, hb.accesses]

end Guarded

/-- A dropped block is noticed by its offset alone. -/
theorem Block.Replaced.alike {dropped : Prop} {b b' : Block} (hd : dropped)
    (h : Block.Replaced labels b b') : Block.Alike labels observers dropped b b' where
  offset := h.offset
  drop region := by
    simp only [Event.drop, Block.isEmpty, List.isEmpty_iff, h.filled, h.filled', if_false, h.offset]
  fragment hn := absurd hd hn
  events hn := absurd hd hn
  accesses := by rw [h.quiet.accessesAt, h.quiet'.accessesAt]

theorem Stmt.AlikeFrom.block {dropped : Prop} {body body' : List Stmt} (offset : Int)
    (h : Stmt.AlikeFrom labels observers .empty body body') :
    Block.Alike labels observers dropped ⟨offset, body⟩ ⟨offset, body'⟩ where
  offset := rfl
  drop region := by
    simp only [Event.drop, Block.isEmpty, List.isEmpty_iff, h.nil_iff]
  fragment _ := by
    rw [Block.fragment, Block.fragment]
    exact h.sequence
  events _ := by
    rw [Block.events, Block.events]
    exact h.events
  accesses := h.accesses

theorem Stmt.AlikeFrom.reached {f : Fragment} {s s' : Stmt} {rest rest' : List Stmt}
    (hf : f.reachesExit = true) (hs : Stmt.Alike labels observers s s')
    (h : Stmt.AlikeFrom labels observers (f.andThen s.offset s.fragment) rest rest') :
    Stmt.AlikeFrom labels observers f (s :: rest) (s' :: rest') where
  nil_iff := by simp
  sequence := by
    rw [Stmt.sequence, Stmt.sequence, if_pos hf, if_pos hf, hs.offset, hs.fragment]
    exact h.sequence
  events := by
    rw [Stmt.sequenceEvents, Stmt.sequenceEvents, if_pos hf, if_pos hf, hs.events, hs.offset,
      hs.fragment, h.events]
  accesses := by
    rw [Stmt.accessesAt_cons, hs.accesses, h.accesses, ← Stmt.accessesAt_cons]

/-- Of an unreachable statement only its kind and its offset are noticed. -/
theorem Stmt.AlikeFrom.unreached {f : Fragment} {s s' : Stmt} {rest rest' : List Stmt}
    (hf : f.reachesExit = false) (hkind : s'.kind = s.kind) (hoffset : s'.offset = s.offset)
    (haccesses : Stmt.accessesAt labels observers [s'] = Stmt.accessesAt labels observers [s])
    (h : Stmt.AlikeFrom labels observers f rest rest') :
    Stmt.AlikeFrom labels observers f (s :: rest) (s' :: rest') where
  nil_iff := by simp
  sequence := by simp [Stmt.sequence, hf]
  events := by simp [Stmt.sequenceEvents, hf, hkind, hoffset, h.events]
  accesses := by rw [Stmt.accessesAt_cons, haccesses, h.accesses, ← Stmt.accessesAt_cons]

mutual
/-- An edit of a statement is alike: one case for each form of statement. -/
theorem Stmt.Patched.alike (observers : List (Option String)) {s s' : Stmt} :
    Stmt.Patched labels s s' → Stmt.Alike labels observers s s'
  | .same _ => ⟨rfl, rfl, rfl, rfl⟩
  | .whileStmt h => Stmt.alike_whileStmt (h.alike observers)
  | .ifThen h => Stmt.alike_ifThen (h.alike observers)
  | .ifElse hc ha => Stmt.alike_ifElse (hc.alike observers) (ha.alike observers)
  | .tryCatch hb hh => Stmt.alike_tryCatch (hb.alike observers) (hh.alike observers)
  | .tryFinally hb hh hf =>
    Stmt.alike_tryFinally (hb.alike observers) (hh.alike observers) (hf.alike observers)
  | .braces h => Stmt.alike_braces (h.alike observers)
theorem Block.Patched.alike (observers : List (Option String)) {dropped : Prop} {b b' : Block} :
    Block.Patched labels dropped b b' → Block.Alike labels observers dropped b b'
  | .same _ => ⟨rfl, fun _ => rfl, fun _ => rfl, fun _ => rfl, rfl⟩
  | .entered _ h => (h.alike observers).block _
  | .replaced hd h => h.alike hd
theorem Stmt.PatchedFrom.alike (observers : List (Option String)) {f : Fragment}
    {ss ss' : List Stmt} :
    Stmt.PatchedFrom labels f ss ss' → Stmt.AlikeFrom labels observers f ss ss'
  | .nil => ⟨Iff.rfl, rfl, rfl, rfl⟩
  | .reached hf hs h => .reached hf (hs.alike observers) (h.alike observers)
  | .kept hf h => .unreached hf rfl rfl rfl (h.alike observers)
  | .replaced hf hs h =>
    .unreached hf hs.kind hs.offset (by rw [hs.quiet.accessesAt, hs.quiet'.accessesAt])
      (h.alike observers)
end

end Alike

/-! ### Tables at labels -/

namespace Table

variable {κ : Type} [DecidableEq κ] {keys : List κ}

/-- The rows of a table at some keys. -/
def restrict (keys : List κ) (t : Table κ) : Table κ :=
  ⟨t.rows.filter (·.1 ∈ keys)⟩

theorem find?_filter {key : κ} (h : key ∈ keys) (rows : List (κ × NameSet)) :
    find? key (rows.filter (·.1 ∈ keys)) = find? key rows := by
  induction rows with
  | nil => rfl
  | cons row rest ih =>
    obtain ⟨k, names⟩ := row
    by_cases hk : k = key
    · subst hk
      simp [find?, h]
    · by_cases hmem : k ∈ keys <;> simp [find?, hk, hmem, ih]

theorem get_restrict {key : κ} (h : key ∈ keys) (t : Table κ) :
    (t.restrict keys).get key = t.get key := by
  rw [get, get?, restrict, find?_filter h]
  rfl

theorem get_eq_of_restrict_eq {t t' : Table κ} (h : t'.restrict keys = t.restrict keys) :
    ∀ key ∈ keys, t'.get key = t.get key := by
  intro key hkey
  rw [← get_restrict hkey t', h, get_restrict hkey]

theorem filter_setRow_of_mem {key : κ} (h : key ∈ keys) (names : NameSet)
    (rows : List (κ × NameSet)) :
    (setRow key names rows).filter (·.1 ∈ keys) =
      setRow key names (rows.filter (·.1 ∈ keys)) := by
  induction rows with
  | nil => simp [setRow, h]
  | cons row rest ih =>
    obtain ⟨k, old⟩ := row
    by_cases hk : k = key
    · subst hk
      simp [setRow, h]
    · by_cases hmem : k ∈ keys <;> simp [setRow, hk, hmem, ih]

theorem filter_setRow_of_not_mem {key : κ} (h : key ∉ keys) (names : NameSet)
    (rows : List (κ × NameSet)) :
    (setRow key names rows).filter (·.1 ∈ keys) = rows.filter (·.1 ∈ keys) := by
  induction rows with
  | nil => simp [setRow, h]
  | cons row rest ih =>
    obtain ⟨k, old⟩ := row
    by_cases hk : k = key
    · subst hk
      simp [setRow, h]
    · by_cases hmem : k ∈ keys <;> simp [setRow, hk, hmem, ih]

/-- Only what is added at one of the keys is seen there. -/
theorem restrict_add (t : Table κ) (key : κ) (names : NameSet) :
    (t.add key names).restrict keys =
      if key ∈ keys then (t.restrict keys).add key names else t.restrict keys := by
  split
  · next h =>
    rw [add, add, get_restrict h]
    exact congrArg Table.mk (filter_setRow_of_mem h _ _)
  · next h => exact congrArg Table.mk (filter_setRow_of_not_mem h _ _)

end Table

namespace Effects

variable {labels : List Label}

/-- The effects at some labels. -/
def restrict (labels : List Label) (e : Effects) : Effects where
  gen := e.gen.restrict labels
  kill := e.kill.restrict labels

theorem restrict_record (e : Effects) (a : Access) :
    (e.record a).restrict labels =
      if a.label ∈ labels then (e.restrict labels).record a else e.restrict labels := by
  simp only [restrict, record, Table.restrict_add]
  split <;> rfl

/-- The effects at some labels come from the accesses there. -/
theorem restrict_foldl {α : Type} (access : α → Access) (items : List α) (e : Effects) :
    (items.foldl (fun e item => e.record (access item)) e).restrict labels =
      (items.filter fun item => (access item).label ∈ labels).foldl (fun e item => e.record (access item))
        (e.restrict labels) := by
  induction items generalizing e with
  | nil => rfl
  | cons item rest ih =>
    rw [List.foldl_cons, ih, restrict_record]
    by_cases h : (access item).label ∈ labels <;> simp [h]

theorem restrict_ofAccesses (accesses : List Access) :
    (ofAccesses accesses).restrict labels =
      ofAccesses (accesses.filter (·.label ∈ labels)) :=
  restrict_foldl id accesses ⟨∅, ∅⟩

theorem restrict_cover (e : Effects) :
    (e.cover labels).restrict labels = (e.restrict labels).cover labels := by
  refine (restrict_foldl (fun label => ⟨label, [], []⟩) labels e).trans ?_
  rw [List.filter_eq_self.mpr fun label hl => decide_eq_true hl]
  rfl

end Effects

/-- Live variables depend on the sets of the labels of the graph. -/
theorem FlowGraph.liveVariables_congr (g : FlowGraph) {kill kill' gen gen' : Table Label}
    (hkill : ∀ l ∈ g.labels, kill'.get l = kill.get l)
    (hgen : ∀ l ∈ g.labels, gen'.get l = gen.get l) (cap : Int) :
    liveVariables g.flows kill' gen' g.labels cap = liveVariables g.flows kill gen g.labels cap := by
  rw [liveVariables, liveVariables]
  apply Equations.solve_congr
  · rfl
  · rfl
  · intro sweeps l hl
    have hmem : l ∈ g.labels := g.mem_live_nodes.mp hl
    funext out
    simp only [Equations.live, hkill l hmem, hgen l hmem]

/-- Dead assignments are found at the labels that have exit sets. -/
theorem deadAssignments_restrict {labels : List Label} (kill : Table Label) {exit : Table Label}
    (h : ∀ l ∈ exit.keys, l ∈ labels) :
    deadAssignments (kill.restrict labels) exit = deadAssignments kill exit := by
  rw [deadAssignments, Table.restrict, List.filterMap_filter, deadAssignments]
  refine congrArg (fun find => List.filterMap find kill.rows) (funext fun row => ?_)
  obtain ⟨l, names⟩ := row
  by_cases hl : l ∈ labels
  · simp [hl]
  · have hout : exit.get? l = none := Table.get?_eq_none_iff.mpr fun hkey => hl (h l hkey)
    simp [hl, hout]

/-! ### The analysis of an edited program -/

namespace Program

variable {p p' : Program}

theorem Patched.graph_eq (h : p.Patched p') : p'.graph = p.graph := by
  have hf : p'.block.fragment = p.block.fragment := by
    rw [block, block, Block.fragment, Block.fragment]
    exact (h.2.alike []).sequence
  rw [graph, graph, hf]

theorem Patched.events_eq (h : p.Patched p') : p'.events = p.events := by
  rw [events, events, block, block, Block.events, Block.events]
  exact (h.2.alike []).events

/-- The reads and writes of an edited program are the same at the labels of the graph. -/
theorem Patched.effects_eq (h : p.Patched p') (observers : List (Option String)) :
    (p'.allEffects observers).restrict p.graph.labels =
      (p.allEffects observers).restrict p.graph.labels := by
  have haccesses : (p'.accesses observers).filter (·.label ∈ p.graph.labels) =
      (p.accesses observers).filter (·.label ∈ p.graph.labels) := (h.2.alike observers).accesses
  rw [allEffects, h.graph_eq, Effects.restrict_cover, effects, Effects.restrict_ofAccesses,
    haccesses, ← Effects.restrict_ofAccesses, ← Effects.restrict_cover]
  rfl

/-- The equations of an edited program have the same solution, or reach the cap alike. -/
theorem Patched.live_eq (h : p.Patched p') (config : Config) : p'.live config = p.live config := by
  have heffects := h.effects_eq config.calls
  rw [live, h.graph_eq, live]
  apply p.graph.liveVariables_congr
  · exact Table.get_eq_of_restrict_eq (congrArg Effects.kill heffects)
  · exact Table.get_eq_of_restrict_eq (congrArg Effects.gen heffects)

/-- Dead assignments of an edited program are those of the program. -/
theorem Patched.deadAssignments_eq (h : p.Patched p') {config : Config} {sol : Solution Label}
    (hlive : p.live config = .ok sol) :
    deadAssignments (p'.allEffects config.calls).kill sol.facts.exit =
      deadAssignments (p.allEffects config.calls).kill sol.facts.exit := by
  have hkeys : ∀ l ∈ sol.facts.exit.keys, l ∈ p.graph.labels := fun l hl =>
    p.graph.mem_live_nodes.mp ((mem_exit_keys hlive).mp hl)
  rw [← deadAssignments_restrict (p'.allEffects config.calls).kill hkeys,
    ← deadAssignments_restrict (p.allEffects config.calls).kill hkeys]
  exact congrArg (fun e => deadAssignments e.kill sol.facts.exit) (h.effects_eq config.calls)

end Program

/-- **Dead code does not influence the analysis of live code.**  Replace statements of a program
that are found unreachable and blocks that are found dead, such that no expression in them starts
at a label of the graph before or after.  If both programs have labels, they have the same graph,
the same live variables after the same number of sweeps and the same findings, or both reach the
cap. -/
theorem Program.dead_code_irrelevant (p p' : Program) (config : Config)
    (labels labels' : List (Label × Json)) (hlabels : p.labels = .ok labels)
    (hlabels' : p'.labels = .ok labels') (h : p.Patched p') :
    (∃ a a', p.analyze config = .ok a ∧ p'.analyze config = .ok a' ∧
      a'.graph = a.graph ∧ a'.live = a.live ∧ a'.findings = a.findings) ∨
    ∃ d, p.analyze config = .error (.diverged d) ∧ p'.analyze config = .error (.diverged d) := by
  rw [Program.analyze, hlabels, Program.analyze, hlabels', h.live_eq config]
  rcases hlive : p.live config with d | sol
  · exact Or.inr ⟨d, rfl, rfl⟩
  · refine Or.inl ⟨_, _, rfl, rfl, h.graph_eq, rfl, ?_⟩
    show allFindings p'.events _ = allFindings p.events _
    rw [h.events_eq, h.deadAssignments_eq hlive]

/-- `try { throw e; x = y; } catch (e) { while (c) { if (false) { x = z; } else { console.log(x); }
} } while (false) { w = v; u = ww; }` -/
def deserted : Program where
  offset := 0
  body :=
    [.tryStmt 0
      ⟨4, [.throwStmt 6 (some (.identifier 12 "e")),
        .exprStmt 15 (.assignment 15 (.str "=") (.identifier 15 "x") (.identifier 19 "y"))]⟩
      ⟨34, [.whileStmt 36 (.identifier 43 "c")
        ⟨46, [.ifStmt 48 (.literal 52 (.bool false) (.str "false"))
          ⟨59, [.exprStmt 61
            (.assignment 61 (.str "=") (.identifier 61 "x") (.identifier 65 "z"))]⟩
          (some ⟨75, [.exprStmt 77
            (.call 77 (.member 77 (.identifier 77 "console") (.identifier 85 "log") false)
              [some (.identifier 89 "x")])]⟩) false]⟩]⟩ none (.str "e"),
    .whileStmt 99 (.literal 106 (.bool false) (.str "false"))
      ⟨113, [.exprStmt 115
          (.assignment 115 (.str "=") (.identifier 115 "w") (.identifier 119 "v")),
        .exprStmt 122
          (.assignment 122 (.str "=") (.identifier 122 "u") (.identifier 126 "ww"))]⟩]

/-- `deserted` with `log();` for `x = y;`, `{ break; }` for `{ x = z; }`, and
`{ while (w) w--; }` for `{ w = v; u = ww; }`. -/
def resettled : Program where
  offset := 0
  body :=
    [.tryStmt 0
      ⟨4, [.throwStmt 6 (some (.identifier 12 "e")),
        .exprStmt 15 (.call 15 (.identifier 15 "log") [])]⟩
      ⟨34, [.whileStmt 36 (.identifier 43 "c")
        ⟨46, [.ifStmt 48 (.literal 52 (.bool false) (.str "false"))
          ⟨59, [.breakStmt 61 .null]⟩
          (some ⟨75, [.exprStmt 77
            (.call 77 (.member 77 (.identifier 77 "console") (.identifier 85 "log") false)
              [some (.identifier 89 "x")])]⟩) false]⟩]⟩ none (.str "e"),
    .whileStmt 99 (.literal 106 (.bool false) (.str "false"))
      ⟨113, [.whileStmt 115 (.identifier 122 "w")
        ⟨125, [.exprStmt 125 (.update 125 (.str "--") (.identifier 125 "w"))]⟩]⟩]

theorem deserted_patched : deserted.Patched resettled := by
  refine ⟨rfl, ?_⟩
  refine .reached rfl (.tryCatch ?block ?handler) (.reached rfl (.whileStmt ?body) .nil)
  case block =>
    refine .entered not_false (.reached rfl (.same _) (.replaced rfl ?_ .nil))
    exact ⟨rfl, rfl, by decide, by decide⟩
  case handler =>
    refine .entered (by decide) (.reached rfl (.whileStmt ?_) .nil)
    refine .entered (by decide) (.reached rfl (.ifElse ?_ (.same _)) .nil)
    exact .replaced rfl ⟨rfl, by simp, by simp, by decide, by decide⟩
  case body => exact .replaced rfl ⟨rfl, by simp, by simp, by decide, by decide⟩

/-- An unreachable statement, a branch in a loop in a handler and a loop that never runs are
replaced, and what is found about the program stays. -/
theorem deserted_resettled :
    deserted.Patched resettled ∧
    (deserted.labels.map fun labels => labels.map (·.1)) =
      .ok [6, 15, 43, 52, 61, 77, 106, 115, 122] ∧
    (resettled.labels.map fun labels => labels.map (·.1)) =
      .ok [6, 15, 43, 52, 61, 77, 106, 122, 125] ∧
    ∃ a a', deserted.analyze {} = .ok a ∧ resettled.analyze {} = .ok a' ∧
      a'.graph = a.graph ∧ a'.live = a.live ∧ a'.findings = a.findings ∧
      a.findings = [.unreachable "ExpressionStatement" 15, .deadBranch "if consequent" 59,
        .deadBranch "while body" 113] := by
  have hfound : (deserted.analyze {}).toOption.any (fun a =>
      a.findings = [.unreachable "ExpressionStatement" 15, .deadBranch "if consequent" 59,
        .deadBranch "while body" 113]) = true := by decide +kernel
  obtain ⟨a, hrun, hfindings⟩ := Program.exists_analysis hfound
  refine ⟨deserted_patched, rfl, rfl, ?_⟩
  rcases Program.dead_code_irrelevant deserted resettled {} _ _ rfl rfl deserted_patched with
    ⟨b, b', hb, hb', hgraph, hlive, hsame⟩ | ⟨d, hd, -⟩
  · have hba : a = b := Except.ok.inj (hrun.symm.trans hb)
    exact ⟨b, b', hb, hb', hgraph, hlive, hsame, by rw [← hba]; exact hfindings⟩
  · rw [hrun] at hd
    cases hd

end Liveness
