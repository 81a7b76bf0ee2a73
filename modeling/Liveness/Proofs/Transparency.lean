/-
Liveness/Proofs/Transparency.lean

Statements outside the analysed language and bare braces are transparent.
`Stmt.Tidied` relates a statement to one in which some unsupported statements are
left out and some blocks inside other bodies are replaced by their statements.

Braces group statements in one place only.  The handler of a block may be entered
from each of the block's own statements, so a nested block counts as one statement
there, and the relation keeps it (the flag of `Stmt.TidiedAll`).  In fragments this
shows in the list of entries, which nothing reads but `guarded`, and `guarded` only
in the block that is guarded.  So fragments are compared without it
(`Fragment.bare`), and in full for guarded blocks.

That a nested block may be taken out of its braces is the associativity of
sequences (`Fragment.andThen_assoc`), which holds where the first statements of
the nested block can end normally; where they cannot, nothing follows them either
way.
-/
import Liveness.Proofs.DeadAssignments
import Liveness.Proofs.Fragments

namespace Liveness

/-! ### Tidying up -/

mutual
/-- The second statement is the first with some statements inside it left out or taken out of their
braces. -/
inductive Stmt.Tidied : Stmt → Stmt → Prop
  | same (s : Stmt) : Stmt.Tidied s s
  | whileStmt {offset test body body'} :
      Block.Tidied false body body' →
      Stmt.Tidied (.whileStmt offset test body) (.whileStmt offset test body')
  | ifThen {offset test consequent consequent' folded} :
      Block.Tidied false consequent consequent' →
      Stmt.Tidied (.ifStmt offset test consequent none folded)
        (.ifStmt offset test consequent' none folded)
  | ifElse {offset test consequent consequent' alternate alternate' folded} :
      Block.Tidied false consequent consequent' → Block.Tidied false alternate alternate' →
      Stmt.Tidied (.ifStmt offset test consequent (some alternate) folded)
        (.ifStmt offset test consequent' (some alternate') folded)
  | tryCatch {offset block block' handler handler' param} :
      Block.Tidied true block block' → Block.Tidied false handler handler' →
      Stmt.Tidied (.tryStmt offset block handler none param)
        (.tryStmt offset block' handler' none param)
  | tryFinally {offset block block' handler handler' finalizer finalizer' param} :
      Block.Tidied true block block' → Block.Tidied false handler handler' →
      Block.Tidied false finalizer finalizer' →
      Stmt.Tidied (.tryStmt offset block handler (some finalizer) param)
        (.tryStmt offset block' handler' (some finalizer') param)
  | braces {block block'} :
      Block.Tidied false block block' → Stmt.Tidied (.blockStmt block) (.blockStmt block')
/-- The same for blocks; the flag says whether a handler guards the block. -/
inductive Block.Tidied : (guarded : Bool) → Block → Block → Prop
  | body {guarded offset body body'} :
      Stmt.TidiedAll guarded body body' → Block.Tidied guarded ⟨offset, body⟩ ⟨offset, body'⟩
/-- The same for the statements of a block.  Those of a nested block may take its place, unless a
handler guards the outer one. -/
inductive Stmt.TidiedAll : (guarded : Bool) → List Stmt → List Stmt → Prop
  | nil {guarded} : Stmt.TidiedAll guarded [] []
  | keep {guarded s s' rest rest'} :
      Stmt.Tidied s s' → Stmt.TidiedAll guarded rest rest' →
      Stmt.TidiedAll guarded (s :: rest) (s' :: rest')
  | drop {guarded offset tag rest rest'} :
      Stmt.TidiedAll guarded rest rest' →
      Stmt.TidiedAll guarded (.unsupported offset tag :: rest) rest'
  | unwrap {offset body body' rest rest'} :
      Stmt.TidiedAll false body body' → Stmt.TidiedAll false rest rest' →
      Stmt.TidiedAll false (.blockStmt ⟨offset, body⟩ :: rest) (body' ++ rest')
end

/-- The second program is the first with some unsupported statements left out and some blocks taken
out of their braces. -/
def Program.Tidied (p p' : Program) : Prop :=
  p'.offset = p.offset ∧ Stmt.TidiedAll false p.body p'.body

/-! ### Fragments without entries -/

namespace Fragment

/-- A fragment without its list of entries. -/
def bare (f : Fragment) : Fragment :=
  { f with entries := [] }

variable {f f' g next next' : Fragment}

theorem bare_andThen (f next : Fragment) (offset offset' : Int) :
    (f.bare.andThen offset' next.bare).bare = (f.andThen offset next).bare := by
  rcases hn : next.initial with - | entry
  · rw [andThen_of_none offset hn, andThen_of_none offset' (show next.bare.initial = none from hn)]
    rfl
  · rw [andThen_of_some offset hn,
      andThen_of_some offset' (show next.bare.initial = some entry from hn)]
    rfl

/-- What comes next is asked for its entry, its edges and its ends only. -/
theorem andThen_congr (f : Fragment) (offset : Int) (h : next'.bare = next.bare) :
    f.andThen offset next' = f.andThen offset next := by
  have hbare : ∀ n : Fragment, f.andThen offset n = f.andThen offset n.bare := by
    intro n
    rcases hn : n.initial with - | entry
    · rw [andThen_of_none offset hn, andThen_of_none offset (show n.bare.initial = none from hn)]
    · rw [andThen_of_some offset hn,
        andThen_of_some offset (show n.bare.initial = some entry from hn)]
      rfl
  rw [hbare next', h, ← hbare]

theorem bare_andThen_congr (offset offset' : Int) (hf : f'.bare = f.bare)
    (hnext : next'.bare = next.bare) :
    (f'.andThen offset' next').bare = (f.andThen offset next).bare := by
  rw [← bare_andThen f' next' offset' offset, hf, hnext, bare_andThen]

theorem loop_congr (test : Label) (h : f'.bare = f.bare) : loop test f' = loop test f := by
  have hbare : ∀ n : Fragment, loop test n.bare = loop test n := fun n => rfl
  rw [← hbare f', h, hbare]

theorem choice_congr {branches branches' : List Fragment} (test : Label) (withoutElse : Bool)
    (h : branches'.map bare = branches.map bare) :
    choice test withoutElse branches' = choice test withoutElse branches := by
  have hbare : ∀ bs : List Fragment,
      choice test withoutElse (bs.map bare) = choice test withoutElse bs := by
    intro bs
    simp only [choice, List.flatMap_map, List.all_map, List.any_map, List.head?_map]
    cases bs <;> rfl
  rw [← hbare branches', h, hbare]

/-- A handler and what is run on the way out are not asked for their entries. -/
theorem guarded_congr (block : Fragment) {handler handler' finalizer finalizer' : Fragment}
    (hh : handler'.bare = handler.bare) (hf : finalizer'.bare = finalizer.bare) :
    (guarded block handler' finalizer').bare = (guarded block handler finalizer).bare := by
  have hbare : ∀ h n : Fragment, (guarded block h n).bare = (guarded block h.bare n.bare).bare := by
    intro h n
    rcases hb : block.initial with - | entry
    · rw [guarded_of_empty _ _ hb, guarded_of_empty _ _ hb]
      rfl
    rcases hn : n.initial with - | last
    · rw [guarded_open h hb hn, guarded_open h.bare hb (show n.bare.initial = none from hn)]
      rfl
    · rw [guarded_closed h hb hn,
        guarded_closed h.bare hb (show n.bare.initial = some last from hn)]
      rfl
  rw [hbare handler' finalizer', hh, hf, ← hbare]

theorem reachesExit_of_bare (h : f'.bare = f.bare) : f'.reachesExit = f.reachesExit := by
  show f'.bare.reachesExit = f.bare.reachesExit
  rw [h]

theorem exits_andThen_of_some {entry : Label} (offset : Int) (h : next.initial = some entry) :
    (f.andThen offset next).exits = next.exits := by
  rw [andThen_of_some offset h]
  cases hx : next.reachesExit <;> simp [exits, hx]

/-- Sequences are associative where what stands in the middle can end normally. -/
theorem andThen_assoc (hg : g.Coherent) (hr : g.reachesExit = true) (offset offset' : Int) :
    (f.andThen offset (g.andThen offset' next)).bare =
      ((f.andThen offset g).andThen offset' next).bare := by
  rcases hn : next.initial with - | last
  · rw [andThen_of_none offset' hn, andThen_of_none offset' hn]
  have hexits : (g.andThen offset' next).exits = next.exits := exits_andThen_of_some offset' hn
  rcases hi : g.initial with - | entry
  · -- nothing is in the middle
    have hfirst : (g.andThen offset' next).initial = some last := by
      rw [initial_andThen, hi, hn]
      rfl
    rw [andThen_of_none offset hi, andThen_of_some offset hfirst, hexits, hg.eq_empty hi,
      andThen_of_some offset' hn, andThen_of_some offset' hn]
    simp [bare, empty]
  · -- the ends of `g` lead on to what comes next, whether `f` stands in front or not
    have hfirst : (g.andThen offset' next).initial = some entry := by
      rw [initial_andThen, hi]
      rfl
    have hends : g.exits = g.finals := by rw [exits, if_pos hr]
    rw [andThen_of_some offset hfirst, hexits, andThen_of_some offset hi,
      andThen_of_some offset' hn, andThen_of_some offset' hn, hends]
    simp [bare, Option.or_assoc]

end Fragment

/-! ### Sequences of statements -/

section Sequences

variable {f f' g : Fragment}

theorem Stmt.sequence_of_not_reachesExit (ss : List Stmt) (h : f.reachesExit = false) :
    Stmt.sequence f ss = f := by
  cases ss with
  | nil => rw [Stmt.sequence]
  | cons s rest => rw [Stmt.sequence, h, if_neg Bool.false_ne_true]

/-- Nothing runs at an unsupported statement. -/
theorem Stmt.sequence_unsupported (f : Fragment) (offset : Int) (tag : Json) (rest : List Stmt) :
    Stmt.sequence f (.unsupported offset tag :: rest) = Stmt.sequence f rest := by
  rw [Stmt.sequence, Stmt.fragment, Fragment.andThen_of_none _ rfl]
  split
  · rfl
  · next hr => rw [Stmt.sequence_of_not_reachesExit rest (Bool.eq_false_iff.mpr hr)]

theorem Stmt.sequence_append (f : Fragment) (ss rest : List Stmt) :
    Stmt.sequence f (ss ++ rest) = Stmt.sequence (Stmt.sequence f ss) rest := by
  induction ss generalizing f with
  | nil => rw [List.nil_append, Stmt.sequence]
  | cons s ss ih =>
    rcases hr : f.reachesExit with - | -
    · simp only [Stmt.sequence_of_not_reachesExit _ hr]
    · rw [List.cons_append, Stmt.sequence, Stmt.sequence, if_pos hr, if_pos hr, ih]

/-- A sequence goes on in the same way after fragments that differ in their entries only. -/
theorem Stmt.bare_sequence (ss : List Stmt) (h : f'.bare = f.bare) :
    (Stmt.sequence f' ss).bare = (Stmt.sequence f ss).bare := by
  induction ss generalizing f f' with
  | nil =>
    rw [Stmt.sequence, Stmt.sequence]
    exact h
  | cons s rest ih =>
    have hr : f'.reachesExit = f.reachesExit := Fragment.reachesExit_of_bare h
    rw [Stmt.sequence, Stmt.sequence, hr]
    split
    · exact ih (Fragment.bare_andThen_congr _ _ h rfl)
    · exact h

/-- A sequence that goes on inside braces goes on in the same way without them.  The induction is on
the statements that are left inside, `g` being the fragment of those before them. -/
theorem Stmt.sequence_braces (ss : List Stmt) (offset : Int) (hf : f.reachesExit = true)
    (hg : g.Coherent) :
    (f.andThen offset (Stmt.sequence g ss)).bare =
      (Stmt.sequence (f.andThen offset g) ss).bare := by
  induction ss generalizing g with
  | nil => rw [Stmt.sequence, Stmt.sequence]
  | cons s rest ih =>
    rcases hr : g.reachesExit with - | -
    · -- nothing follows inside the braces, and nothing does without them
      have hstop : (f.andThen offset g).reachesExit = false := by
        obtain ⟨entry, hentry⟩ := Option.ne_none_iff_exists'.mp (hg.initial_ne_none hr)
        rw [Fragment.andThen_of_some offset hentry]
        exact hr
      rw [Stmt.sequence_of_not_reachesExit _ hr, Stmt.sequence_of_not_reachesExit _ hstop]
    · rw [Stmt.sequence, if_pos hr, ih (hg.andThen s.coherent hr s.offset), Stmt.sequence,
        if_pos (Fragment.reachesExit_andThen offset hf hr)]
      exact Stmt.bare_sequence rest (Fragment.andThen_assoc hg hr offset s.offset)

/-- The statements of a block run as the block does. -/
theorem Stmt.sequence_unwrapped (offset : Int) (body : List Stmt) (hf : f.reachesExit = true) :
    (Stmt.sequence f body).bare =
      (f.andThen offset (Stmt.fragment (.blockStmt ⟨offset, body⟩))).bare := by
  have hnone : f.andThen offset .empty = f := Fragment.andThen_of_none offset rfl
  rw [Stmt.fragment, Block.fragment, Stmt.sequence_braces body offset hf Fragment.coherent_empty,
    hnone]

end Sequences

/-! ### Tidied programs have the same graph -/

mutual
/-- Tidying up a statement leaves its fragment alone, entries apart. -/
theorem Stmt.Tidied.fragment {s s' : Stmt} : Stmt.Tidied s s' →
    s'.offset = s.offset ∧ s'.fragment.bare = s.fragment.bare
  | .same _ => ⟨rfl, rfl⟩
  | .whileStmt h => by
    obtain ⟨-, hbody, -⟩ := h.fragment
    refine ⟨rfl, ?_⟩
    rw [Stmt.fragment, Stmt.fragment, Fragment.loop_congr _ hbody]
  | .ifThen h => by
    obtain ⟨-, hconsequent, -⟩ := h.fragment
    refine ⟨rfl, ?_⟩
    rw [Stmt.fragment, Stmt.fragment]
    refine congrArg Fragment.bare (Fragment.choice_congr _ _ ?_)
    split
    · rfl
    · simp [hconsequent]
  | .ifElse hc ha => by
    obtain ⟨-, hconsequent, -⟩ := hc.fragment
    obtain ⟨-, halternate, -⟩ := ha.fragment
    refine ⟨rfl, ?_⟩
    rw [Stmt.fragment, Stmt.fragment]
    refine congrArg Fragment.bare (Fragment.choice_congr _ _ ?_)
    split <;> simp [hconsequent, halternate]
  | .tryCatch hb hh => by
    obtain ⟨-, -, hblock⟩ := hb.fragment
    obtain ⟨-, hhandler, -⟩ := hh.fragment
    refine ⟨rfl, ?_⟩
    rw [Stmt.fragment, Stmt.fragment, hblock rfl]
    exact Fragment.guarded_congr _ hhandler rfl
  | .tryFinally hb hh hf => by
    obtain ⟨-, -, hblock⟩ := hb.fragment
    obtain ⟨-, hhandler, -⟩ := hh.fragment
    obtain ⟨-, hfinalizer, -⟩ := hf.fragment
    refine ⟨rfl, ?_⟩
    rw [Stmt.fragment, Stmt.fragment, hblock rfl]
    exact Fragment.guarded_congr _ hhandler hfinalizer
  | .braces h => by
    obtain ⟨hoffset, hblock, -⟩ := h.fragment
    refine ⟨hoffset, ?_⟩
    rw [Stmt.fragment, Stmt.fragment, hblock]
/-- The fragment of a guarded block is left alone in full. -/
theorem Block.Tidied.fragment {guarded : Bool} {b b' : Block} : Block.Tidied guarded b b' →
    b'.offset = b.offset ∧ b'.fragment.bare = b.fragment.bare ∧
      (guarded = true → b'.fragment = b.fragment)
  | .body h => by
    obtain ⟨hbare, hfull⟩ := h.sequence
    rw [Block.fragment, Block.fragment]
    exact ⟨rfl, hbare rfl, fun hg => hfull hg .empty⟩
theorem Stmt.TidiedAll.sequence {guarded : Bool} {ss ss' : List Stmt} :
    Stmt.TidiedAll guarded ss ss' →
    (∀ {f f' : Fragment}, f'.bare = f.bare →
        (Stmt.sequence f' ss').bare = (Stmt.sequence f ss).bare) ∧
      (guarded = true → ∀ f, Stmt.sequence f ss' = Stmt.sequence f ss)
  | .nil => by
    refine ⟨fun h => ?_, fun _ f => rfl⟩
    rw [Stmt.sequence, Stmt.sequence]
    exact h
  | .keep hs h => by
    obtain ⟨hoffset, hfragment⟩ := hs.fragment
    obtain ⟨hbare, hfull⟩ := h.sequence
    refine ⟨fun {f f'} hf => ?_, fun hg f => ?_⟩
    · have hr : f'.reachesExit = f.reachesExit := Fragment.reachesExit_of_bare hf
      rw [Stmt.sequence, Stmt.sequence, hr]
      split
      · exact hbare (Fragment.bare_andThen_congr _ _ hf hfragment)
      · exact hf
    · rw [Stmt.sequence, Stmt.sequence, hoffset, Fragment.andThen_congr f _ hfragment, hfull hg]
  | .drop h => by
    obtain ⟨hbare, hfull⟩ := h.sequence
    refine ⟨fun {f f'} hf => ?_, fun hg f => ?_⟩
    · rw [Stmt.sequence_unsupported]
      exact hbare hf
    · rw [Stmt.sequence_unsupported]
      exact hfull hg f
  | @Stmt.TidiedAll.unwrap offset body _ rest _ hb h => by
    obtain ⟨hbody, -⟩ := hb.sequence
    obtain ⟨hrest, -⟩ := h.sequence
    refine ⟨fun {f f'} hf => ?_, fun hg => absurd hg Bool.false_ne_true⟩
    have hsame := hbody hf
    rw [Stmt.sequence_append, Stmt.sequence]
    split
    · next hr =>
      rw [Stmt.sequence_unwrapped offset body hr] at hsame
      exact hrest hsame
    · next hr =>
      have hstop : f.reachesExit = false := Bool.eq_false_iff.mpr hr
      rw [hrest hsame, Stmt.sequence_of_not_reachesExit body hstop,
        Stmt.sequence_of_not_reachesExit rest hstop]
end

/-! ### Tidied programs have the same headings -/

/-- A statement without the blocks in it, unless it is nothing but a block or outside the analysed
language. -/
def Stmt.heading? : Stmt → Option Stmt
  | .whileStmt offset test _ => some (.whileStmt offset test default)
  | .ifStmt offset test _ _ folded => some (.ifStmt offset test default none folded)
  | .tryStmt offset _ _ _ param => some (.tryStmt offset default default none param)
  | .blockStmt _ | .unsupported _ _ => none
  | s => some s

/-- All headings in some statements, outer ones first, in the order of the text. -/
def Stmt.headings (ss : List Stmt) : List Stmt :=
  (Stmt.flatten ss).filterMap Stmt.heading?

section Headings

theorem Stmt.flatten_append (ss rest : List Stmt) :
    Stmt.flatten (ss ++ rest) = Stmt.flatten ss ++ Stmt.flatten rest := by
  induction ss with
  | nil => rfl
  | cons s ss ih => simp [Stmt.flatten, ih]

theorem Stmt.headings_append (ss rest : List Stmt) :
    Stmt.headings (ss ++ rest) = Stmt.headings ss ++ Stmt.headings rest := by
  rw [headings, flatten_append, List.filterMap_append]
  rfl

theorem Stmt.headings_cons (s : Stmt) (rest : List Stmt) :
    Stmt.headings (s :: rest) = Stmt.headings [s] ++ Stmt.headings rest :=
  Stmt.headings_append [s] rest

/-- The headings in a statement are its own and those in its blocks. -/
theorem Stmt.headings_singleton (s : Stmt) :
    Stmt.headings [s] = s.heading?.toList ++ s.blocks.flatMap fun b => Stmt.headings b.body := by
  have hbody : ∀ b : Block, b.statements = Stmt.flatten b.body := fun b => by cases b; rfl
  rcases s with _ | _ | _ | ⟨_, _, _, _ | _, _⟩ | _ | _ | _ | ⟨_, _, _, _ | _, _⟩ | _ | _ <;>
    simp [headings, flatten, nested, blocks, heading?, hbody, List.filterMap_cons]

/-- Reads and writes are those of headings. -/
theorem Stmt.flatMap_accesses_heading? (observers : List (Option String)) (ss : List Stmt) :
    (ss.filterMap Stmt.heading?).flatMap (·.accesses observers) =
      ss.flatMap (·.accesses observers) := by
  induction ss with
  | nil => rfl
  | cons s rest ih =>
    have hs : s.heading?.toList.flatMap (·.accesses observers) = s.accesses observers := by
      cases s <;> simp [heading?, accesses]
    rw [List.flatMap_cons, ← ih, ← hs]
    cases hh : s.heading? <;> simp [hh]

/-- Labels are those of headings. -/
theorem Stmt.labelsFrom_heading? (seen : List (Int × Json)) (ss : List Stmt) :
    Stmt.labelsFrom seen (ss.filterMap Stmt.heading?) = Stmt.labelsFrom seen ss := by
  induction ss generalizing seen with
  | nil => rfl
  | cons s rest ih => cases s <;> simp [heading?, labelsFrom, point?, kind, pointKind, ih,
      List.filterMap_cons]

mutual
/-- Tidying up a statement leaves all headings in it alone. -/
theorem Stmt.Tidied.headings {s s' : Stmt} : Stmt.Tidied s s' →
    Stmt.headings [s'] = Stmt.headings [s]
  | .same _ => rfl
  | .whileStmt h | .ifThen h | .braces h => by
    simp [Stmt.headings_singleton, Stmt.heading?, Stmt.blocks, h.headings]
  | .ifElse h h' | .tryCatch h h' => by
    simp [Stmt.headings_singleton, Stmt.heading?, Stmt.blocks, h.headings, h'.headings]
  | .tryFinally hb hh hf => by
    simp [Stmt.headings_singleton, Stmt.heading?, Stmt.blocks, hb.headings, hh.headings,
      hf.headings]
theorem Block.Tidied.headings {guarded : Bool} {b b' : Block} : Block.Tidied guarded b b' →
    Stmt.headings b'.body = Stmt.headings b.body
  | .body h => h.headings
theorem Stmt.TidiedAll.headings {guarded : Bool} {ss ss' : List Stmt} :
    Stmt.TidiedAll guarded ss ss' → Stmt.headings ss' = Stmt.headings ss
  | .nil => rfl
  | .keep hs h => by
    rw [Stmt.headings_cons, hs.headings, h.headings, ← Stmt.headings_cons]
  | .drop h => by
    rw [h.headings, Stmt.headings_cons, Stmt.headings_singleton]
    rfl
  | .unwrap hb h => by
    rw [Stmt.headings_append, hb.headings, h.headings, Stmt.headings_cons, Stmt.headings_singleton]
    simp [Stmt.heading?, Stmt.blocks]
end

end Headings

/-! ### The analysis of a tidied program -/

namespace Program

variable {p p' : Program}

theorem Tidied.graph_eq (h : p.Tidied p') : p'.graph = p.graph := by
  have hf : p'.block.fragment.bare = p.block.fragment.bare := by
    rw [block, block, Block.fragment, Block.fragment]
    exact h.2.sequence.1 rfl
  have hbare : ∀ q : Program, q.graph = ⟨q.block.fragment.bare.flows,
      q.block.fragment.bare.initial, q.block.fragment.bare.finals⟩ := fun q => rfl
  rw [hbare p', hf, ← hbare]

theorem Tidied.labels_eq (h : p.Tidied p') : p'.labels = p.labels := by
  have hheadings : Stmt.headings p'.body = Stmt.headings p.body := h.2.headings
  calc p'.labels
    _ = Stmt.labelsFrom [] (Stmt.headings p'.body) := (Stmt.labelsFrom_heading? [] _).symm
    _ = Stmt.labelsFrom [] (Stmt.headings p.body) := by rw [hheadings]
    _ = p.labels := Stmt.labelsFrom_heading? [] _

theorem Tidied.allEffects_eq (h : p.Tidied p') (observers : List (Option String)) :
    p'.allEffects observers = p.allEffects observers := by
  have hheadings : Stmt.headings p'.body = Stmt.headings p.body := h.2.headings
  have haccesses : p'.accesses observers = p.accesses observers :=
    calc p'.accesses observers
      _ = (Stmt.headings p'.body).flatMap (·.accesses observers) :=
        (Stmt.flatMap_accesses_heading? observers _).symm
      _ = (Stmt.headings p.body).flatMap (·.accesses observers) := by rw [hheadings]
      _ = p.accesses observers := Stmt.flatMap_accesses_heading? observers _
  rw [allEffects, h.graph_eq, effects, haccesses]
  rfl

theorem Tidied.live_eq (h : p.Tidied p') (config : Config) : p'.live config = p.live config := by
  rw [live, h.allEffects_eq, h.graph_eq]
  rfl

/-- The analysis of a tidied program differs in what is noticed about the program. -/
theorem Tidied.analyze_eq (h : p.Tidied p') (config : Config) :
    p'.analyze config = (p.analyze config).map fun a =>
      { a with
        program := p'
        findings := allFindings p'.events (deadAssignments a.effects.kill a.live.facts.exit) } := by
  rw [analyze, analyze, h.labels_eq, h.live_eq, h.graph_eq, h.allEffects_eq]
  rcases p.labels with m | labels
  · rfl
  · rcases p.live config with d | sol <;> rfl

end Program

/-- **Unsupported statements and bare braces are transparent.**  Leave out any statements outside
the analysed language, and put the statements of any nested blocks in their place, except directly
in the block of a `try`.  Labels, flow graph, reads and writes and live variables stay as they are,
edges in their order and the number of sweeps included, and so do the findings of dead
assignments.  If the analysis fails, it fails in the same way. -/
theorem Program.tidying_irrelevant (p p' : Program) (config : Config) (h : p.Tidied p') :
    p'.labels = p.labels ∧
    (∀ a, p.analyze config = .ok a →
      ∃ a', p'.analyze config = .ok a' ∧ a'.graph = a.graph ∧
        a'.graph.labels = a.graph.labels ∧ a'.effects = a.effects ∧ a'.live = a.live ∧
        a'.findings.filter (·.kind = .deadAssignment) =
          a.findings.filter (·.kind = .deadAssignment)) ∧
    ∀ e, p.analyze config = .error e → p'.analyze config = .error e := by
  refine ⟨h.labels_eq, fun a ha => ?_, fun e he => ?_⟩
  · obtain ⟨-, -, -, hfindings⟩ := Program.analyze_eq_ok ha
    rw [h.analyze_eq, ha]
    refine ⟨_, rfl, rfl, rfl, rfl, rfl, ?_⟩
    rw [hfindings, filter_allFindings_dead, filter_allFindings_dead]
  · rw [h.analyze_eq, he]
    rfl

/-- `while (c) { { x = y; if (x) { break; } } debugger; z = x; } try { debugger; { f(); x = z; } }
catch (e) { { console.log(x); } }` -/
def cluttered : Program where
  offset := 0
  body :=
    [.whileStmt 0 (.identifier 7 "c")
      ⟨10, [.blockStmt ⟨12,
          [.exprStmt 14 (.assignment 14 (.str "=") (.identifier 14 "x") (.identifier 18 "y")),
            .ifStmt 21 (.identifier 25 "x") ⟨28, [.breakStmt 30 .null]⟩ none false]⟩,
        .unsupported 41 (.str "DebuggerStatement"),
        .exprStmt 51 (.assignment 51 (.str "=") (.identifier 51 "z") (.identifier 55 "x"))]⟩,
    .tryStmt 60
      ⟨64, [.unsupported 66 (.str "DebuggerStatement"),
        .blockStmt ⟨76, [.exprStmt 78 (.call 78 (.identifier 78 "f") []),
          .exprStmt 83
            (.assignment 83 (.str "=") (.identifier 83 "x") (.identifier 87 "z"))]⟩]⟩
      ⟨104, [.blockStmt ⟨106, [.exprStmt 108
        (.call 108 (.member 108 (.identifier 108 "console") (.identifier 116 "log") false)
          [some (.identifier 120 "x")])]⟩]⟩ none (.str "e")]

/-- `while (c) { x = y; if (x) { break; } z = x; } try { { f(); x = z; } } catch (e) {
console.log(x); }`, with the offsets of `cluttered` -/
def uncluttered : Program where
  offset := 0
  body :=
    [.whileStmt 0 (.identifier 7 "c")
      ⟨10, [.exprStmt 14 (.assignment 14 (.str "=") (.identifier 14 "x") (.identifier 18 "y")),
        .ifStmt 21 (.identifier 25 "x") ⟨28, [.breakStmt 30 .null]⟩ none false,
        .exprStmt 51 (.assignment 51 (.str "=") (.identifier 51 "z") (.identifier 55 "x"))]⟩,
    .tryStmt 60
      ⟨64, [.blockStmt ⟨76, [.exprStmt 78 (.call 78 (.identifier 78 "f") []),
          .exprStmt 83
            (.assignment 83 (.str "=") (.identifier 83 "x") (.identifier 87 "z"))]⟩]⟩
      ⟨104, [.exprStmt 108
        (.call 108 (.member 108 (.identifier 108 "console") (.identifier 116 "log") false)
          [some (.identifier 120 "x")])]⟩ none (.str "e")]

theorem cluttered_tidied : cluttered.Tidied uncluttered := by
  refine ⟨rfl, .keep (.whileStmt (.body ?body)) (.keep (.tryCatch (.body ?block) (.body ?handler))
    .nil)⟩
  case body =>
    exact .unwrap (.keep (.same _) (.keep (.same _) .nil)) (.drop (.keep (.same _) .nil))
  case block => exact .drop (.keep (.same _) .nil)
  case handler => exact .unwrap (.keep (.same _) .nil) .nil

/-- A loop and a handler lose their inner braces, and two statements are left out: the analysis
of what is left finds what it found before. -/
theorem cluttered_uncluttered :
    cluttered.Tidied uncluttered ∧
    ∃ a a', cluttered.analyze {} = .ok a ∧ uncluttered.analyze {} = .ok a' ∧
      a'.graph = a.graph ∧ a'.effects = a.effects ∧ a'.live = a.live ∧
      a.graph.flows = [(7, 14), (14, 25), (25, 30), (25, 51), (51, 7), (7, 78), (30, 78), (78, 83),
        (78, 108)] ∧
      a'.findings.filter (·.kind = .deadAssignment) = [.deadAssignment "x" 83] := by
  have hfound : (cluttered.analyze {}).toOption.any (fun a =>
      a.graph.flows = [(7, 14), (14, 25), (25, 30), (25, 51), (51, 7), (7, 78), (30, 78), (78, 83),
        (78, 108)] ∧
      a.findings.filter (·.kind = .deadAssignment) = [.deadAssignment "x" 83]) = true := by
    decide +kernel
  obtain ⟨a, hrun, hflows, hfindings⟩ := Program.exists_analysis hfound
  obtain ⟨-, hok, -⟩ := Program.tidying_irrelevant cluttered uncluttered {} cluttered_tidied
  obtain ⟨a', hrun', hgraph, -, heffects, hlive, hdead⟩ := hok a hrun
  exact ⟨cluttered_tidied, a, a', hrun, hrun', hgraph, heffects, hlive, hflows,
    hdead.trans hfindings⟩

/-- Braces directly in the block of a `try` do matter: without them the second statement may be left
for the handler too. -/
example :
    let call (label : Int) : Stmt := .exprStmt label (.call label (.identifier label "f") [])
    let guarding (body : List Stmt) : Program :=
      ⟨0, [.tryStmt 0 ⟨1, body⟩ ⟨5, [call 6]⟩ none .null]⟩
    (guarding [.blockStmt ⟨2, [call 3, call 4]⟩]).graph.flows = [(3, 4), (3, 6)] ∧
      (guarding [call 3, call 4]).graph.flows = [(3, 4), (3, 6), (4, 6)] := by
  decide +kernel

end Liveness
