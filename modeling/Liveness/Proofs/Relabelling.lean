/-
Liveness/Proofs/Relabelling.lean

Programs with other offsets.  `Program.relabel f` applies `f` to the offset of
every node and leaves the rest of the tree alone.  Walks over the tree do not look
at offsets, so they commute with it; what they collect is relabelled.

The flow graph asks for more.  Labels are compared when repetitions are removed,
for which `f` has to be injective, and in one place offsets are compared by order:
the handler of a block is entered from the statements up to the first sure
`throw` (`Fragment.sources_relabel`).  So here `f` is strictly increasing, and the
fragments and events of a relabelled program are those of the program, relabelled
(`Block.fragment_relabel`, `Block.events_relabel`).
-/
import Liveness.Dataflow.Access
import Liveness.Proofs.Renamings
import Liveness.Proofs.Reports
import Liveness.Syntax.Labels

namespace Liveness

/-! ### Expressions -/

namespace Expr

mutual
/-- An expression with `f` applied to the offset of every node. -/
def relabel (f : Int → Int) : Expr → Expr
  | identifier offset name => identifier (f offset) name
  | literal offset value raw => literal (f offset) value raw
  | member offset object property computed =>
    member (f offset) (object.relabel f) (property.relabel f) computed
  | call offset callee arguments =>
    call (f offset) (callee.relabel f) (relabelArguments f arguments)
  | assignment offset operator target value =>
    assignment (f offset) operator (target.relabel f) (value.relabel f)
  | update offset operator target => update (f offset) operator (target.relabel f)
  | operation offset tag operator operands =>
    operation (f offset) tag operator (relabelOperands f operands)
/-- The arguments of a call, relabelled. -/
def relabelArguments (f : Int → Int) : List (Option Expr) → List (Option Expr)
  | [] => []
  | none :: rest => none :: relabelArguments f rest
  | some e :: rest => some (e.relabel f) :: relabelArguments f rest
/-- The operands of an operation, relabelled. -/
def relabelOperands (f : Int → Int) : List Expr → List Expr
  | [] => []
  | e :: rest => e.relabel f :: relabelOperands f rest
end

variable (f : Int → Int)

@[simp] theorem offset_relabel (e : Expr) : (e.relabel f).offset = f e.offset := by
  cases e <;> simp only [relabel, offset]

@[simp] theorem kind_relabel (e : Expr) : (e.relabel f).kind = e.kind := by
  cases e <;> simp only [relabel, kind]

@[simp] theorem truth?_relabel (e : Expr) : (e.relabel f).truth? = e.truth? := by
  cases e with
  | literal offset value raw => cases value <;> simp only [relabel, truth?]
  | _ => simp only [relabel, truth?]

@[simp] theorem bareName?_relabel (e : Expr) : (e.relabel f).bareName? = e.bareName? := by
  cases e <;> simp only [relabel, bareName?]

@[simp] theorem chainName?_relabel : (e : Expr) → (e.relabel f).chainName? = e.chainName?
  | identifier .. => by simp only [relabel, chainName?]
  | literal .. => by simp only [relabel, chainName?]
  | member offset object property computed => by
    have hobject := chainName?_relabel object
    cases property <;> cases computed <;> simp only [relabel, chainName?, hobject]
  | call .. => by simp only [relabel, chainName?]
  | assignment .. => by simp only [relabel, chainName?]
  | update .. => by simp only [relabel, chainName?]
  | operation .. => by simp only [relabel, chainName?]

mutual
@[simp] theorem names_relabel : (e : Expr) → (e.relabel f).names = e.names
  | identifier .. => by simp only [relabel, names]
  | literal .. => by simp only [relabel, names]
  | member _ object property _ => by
    simp only [relabel, names, names_relabel object, names_relabel property]
  | call _ callee arguments => by
    simp only [relabel, names, names_relabel callee, argumentNames_relabel arguments]
  | assignment _ _ target value => by
    simp only [relabel, names, names_relabel target, names_relabel value]
  | update _ _ target => by simp only [relabel, names, names_relabel target]
  | operation _ _ _ operands => by simp only [relabel, names, operandNames_relabel operands]
theorem argumentNames_relabel : (arguments : List (Option Expr)) →
    argumentNames (relabelArguments f arguments) = argumentNames arguments
  | [] => rfl
  | none :: rest => by
    simp only [relabelArguments, argumentNames, argumentNames_relabel rest]
  | some e :: rest => by
    simp only [relabelArguments, argumentNames, names_relabel e, argumentNames_relabel rest]
theorem operandNames_relabel : (operands : List Expr) →
    operandNames (relabelOperands f operands) = operandNames operands
  | [] => rfl
  | e :: rest => by
    simp only [relabelOperands, operandNames, names_relabel e, operandNames_relabel rest]
end

mutual
theorem subexpressions_relabel : (e : Expr) →
    (e.relabel f).subexpressions = e.subexpressions.map (relabel f)
  | identifier .. => by simp only [relabel, subexpressions, List.map_cons, List.map_nil]
  | literal .. => by simp only [relabel, subexpressions, List.map_cons, List.map_nil]
  | member _ object property _ => by
    simp only [relabel, subexpressions, List.map_cons, List.map_append,
      subexpressions_relabel object, subexpressions_relabel property]
  | call _ callee arguments => by
    simp only [relabel, subexpressions, List.map_cons, List.map_append,
      subexpressions_relabel callee, inArguments_relabel arguments]
  | assignment _ _ target value => by
    simp only [relabel, subexpressions, List.map_cons, List.map_append,
      subexpressions_relabel target, subexpressions_relabel value]
  | update _ _ target => by
    simp only [relabel, subexpressions, List.map_cons, subexpressions_relabel target]
  | operation _ _ _ operands => by
    simp only [relabel, subexpressions, List.map_cons, inOperands_relabel operands]
theorem inArguments_relabel : (arguments : List (Option Expr)) →
    inArguments (relabelArguments f arguments) = (inArguments arguments).map (relabel f)
  | [] => rfl
  | none :: rest => by simp only [relabelArguments, inArguments, inArguments_relabel rest]
  | some e :: rest => by
    simp only [relabelArguments, inArguments, List.map_append, subexpressions_relabel e,
      inArguments_relabel rest]
theorem inOperands_relabel : (operands : List Expr) →
    inOperands (relabelOperands f operands) = (inOperands operands).map (relabel f)
  | [] => rfl
  | e :: rest => by
    simp only [relabelOperands, inOperands, List.map_append, subexpressions_relabel e,
      inOperands_relabel rest]
end

/-- The plain names among the arguments of a call. -/
theorem bareNames_relabel (arguments : List (Option Expr)) :
    (relabelArguments f arguments).filterMap (·.bind bareName?) =
      arguments.filterMap (·.bind bareName?) := by
  induction arguments with
  | nil => rfl
  | cons argument rest ih =>
    cases argument with
    | none => simp only [relabelArguments, List.filterMap_cons, Option.bind_none, ih]
    | some e =>
      simp only [relabelArguments, List.filterMap_cons, Option.bind_some, bareName?_relabel, ih]

end Expr

/-! ### Accesses -/

/-- An access at another label. -/
def Access.relabel (f : Int → Int) (a : Access) : Access :=
  { a with label := f a.label }

namespace Expr

variable (f : Int → Int) (observers : List (Option String))

theorem access?_relabel (e : Expr) :
    (e.relabel f).access? observers = (e.access? observers).map (Access.relabel f) := by
  cases e with
  | assignment offset operator target value =>
    cases target <;> simp only [relabel, access?, Option.map_some, Access.relabel, names_relabel] <;>
      simp only [names, argumentNames_relabel, operandNames_relabel, names_relabel]
  | update offset operator target =>
    cases target <;> simp only [relabel, access?, Option.map_some, Access.relabel]
  | call offset callee arguments =>
    simp only [relabel, access?, isObserver, chainName?_relabel, bareNames_relabel]
    rfl
  | _ => simp only [relabel, access?, Option.map_none]

theorem accesses_relabel (e : Expr) :
    (e.relabel f).accesses observers = (e.accesses observers).map (Access.relabel f) := by
  rw [accesses, subexpressions_relabel, List.filterMap_map, accesses, List.map_filterMap]
  exact congrArg (fun g => List.filterMap g e.subexpressions)
    (funext fun part => access?_relabel f observers part)

theorem accesses?_relabel (e : Option Expr) :
    accesses? observers (e.map (relabel f)) = (accesses? observers e).map (Access.relabel f) := by
  cases e with
  | none => rfl
  | some e => exact accesses_relabel f observers e

theorem testAccesses_relabel (e : Expr) :
    (e.relabel f).testAccesses observers = (e.testAccesses observers).map (Access.relabel f) := by
  rw [testAccesses, testAccesses, List.map_cons, accesses_relabel, offset_relabel, names_relabel]
  rfl

end Expr

/-! ### Statements -/

/-- One variable of a declaration, relabelled. -/
def Declarator.relabel (f : Int → Int) (d : Declarator) : Declarator where
  offset := f d.offset
  name := d.name
  init := d.init.map (Expr.relabel f)

mutual
/-- A statement with `f` applied to the offset of every node. -/
def Stmt.relabel (f : Int → Int) : Stmt → Stmt
  | .exprStmt offset e => .exprStmt (f offset) (e.relabel f)
  | .declStmt offset ds => .declStmt (f offset) (ds.map (·.relabel f))
  | .whileStmt offset test body => .whileStmt (f offset) (test.relabel f) (body.relabel f)
  | .ifStmt offset test consequent none folded =>
    .ifStmt (f offset) (test.relabel f) (consequent.relabel f) none folded
  | .ifStmt offset test consequent (some alternate) folded =>
    .ifStmt (f offset) (test.relabel f) (consequent.relabel f) (some (alternate.relabel f)) folded
  | .throwStmt offset argument => .throwStmt (f offset) (argument.map (Expr.relabel f))
  | .breakStmt offset label => .breakStmt (f offset) label
  | .continueStmt offset label => .continueStmt (f offset) label
  | .tryStmt offset block handler none param =>
    .tryStmt (f offset) (block.relabel f) (handler.relabel f) none param
  | .tryStmt offset block handler (some finalizer) param =>
    .tryStmt (f offset) (block.relabel f) (handler.relabel f) (some (finalizer.relabel f)) param
  | .blockStmt block => .blockStmt (block.relabel f)
  | .unsupported offset tag => .unsupported (f offset) tag
/-- A block with `f` applied to the offset of every node. -/
def Block.relabel (f : Int → Int) : Block → Block
  | ⟨offset, body⟩ => ⟨f offset, Stmt.relabelAll f body⟩
/-- Some statements, relabelled. -/
def Stmt.relabelAll (f : Int → Int) : List Stmt → List Stmt
  | [] => []
  | s :: rest => s.relabel f :: Stmt.relabelAll f rest
end

/-- A program with `f` applied to the offset of every node. -/
def Program.relabel (f : Int → Int) (p : Program) : Program where
  offset := f p.offset
  body := Stmt.relabelAll f p.body

theorem Program.block_relabel (f : Int → Int) (p : Program) :
    (p.relabel f).block = p.block.relabel f := by
  rw [Program.block, Program.block, Block.relabel]
  rfl

section Walks

variable (f : Int → Int)

theorem Stmt.relabelAll_eq_map (ss : List Stmt) : Stmt.relabelAll f ss = ss.map (Stmt.relabel f) := by
  induction ss with
  | nil => rfl
  | cons s rest ih => rw [Stmt.relabelAll, ih, List.map_cons]

@[simp] theorem Block.offset_relabel (b : Block) : (b.relabel f).offset = f b.offset := by
  obtain ⟨offset, body⟩ := b
  rw [Block.relabel]

@[simp] theorem Block.isEmpty_relabel (b : Block) : (b.relabel f).isEmpty = b.isEmpty := by
  obtain ⟨offset, body⟩ := b
  rw [Block.relabel, Block.isEmpty, Block.isEmpty, Stmt.relabelAll_eq_map, List.isEmpty_map]

/-- The offset and the kind of a relabelled statement. -/
theorem Stmt.head_relabel (s : Stmt) :
    (s.relabel f).offset = f s.offset ∧ (s.relabel f).kind = s.kind := by
  rcases s with _ | _ | _ | ⟨_, _, _, _ | _, _⟩ | _ | _ | _ | ⟨_, _, _, _ | _, _⟩ | b | _ <;>
    simp only [Stmt.relabel, Stmt.offset, Stmt.kind, Block.offset_relabel, and_self]

/-- The point of a relabelled statement, and what it denotes. -/
theorem Stmt.point?_relabel (s : Stmt) :
    (s.relabel f).point? = s.point?.map f ∧ (s.relabel f).pointKind = s.pointKind := by
  rcases s with _ | _ | _ | ⟨_, _, _, _ | _, _⟩ | _ | _ | _ | ⟨_, _, _, _ | _, _⟩ | _ | _ <;>
    simp only [Stmt.relabel, Stmt.point?, Stmt.pointKind, Stmt.kind, Expr.offset_relabel,
      Expr.kind_relabel, Option.map_some, Option.map_none, and_self]

theorem Stmt.accesses_relabel (observers : List (Option String)) (s : Stmt) :
    (s.relabel f).accesses observers = (s.accesses observers).map (Access.relabel f) := by
  rcases s with ⟨_, e⟩ | ⟨_, ds⟩ | ⟨_, test, _⟩ | ⟨_, test, _, _ | _, _⟩ | ⟨_, argument⟩ | _ | _ |
    ⟨_, _, _, _ | _, _⟩ | _ | _
  case exprStmt => exact e.accesses_relabel f observers
  case declStmt =>
    rw [Stmt.relabel, Stmt.accesses, Stmt.accesses, List.flatMap_map, List.map_flatMap]
    refine congrArg (fun g => List.flatMap g ds) (funext fun d => ?_)
    exact Expr.accesses?_relabel f observers d.init
  case whileStmt => exact test.testAccesses_relabel f observers
  case ifStmt.none => exact test.testAccesses_relabel f observers
  case ifStmt.some => exact test.testAccesses_relabel f observers
  case throwStmt => exact Expr.accesses?_relabel f observers argument
  all_goals rfl

mutual
theorem Stmt.nested_relabel : (s : Stmt) → (s.relabel f).nested = s.nested.map (Stmt.relabel f)
  | .exprStmt .. => rfl
  | .declStmt .. => rfl
  | .throwStmt .. => rfl
  | .breakStmt .. => rfl
  | .continueStmt .. => rfl
  | .unsupported .. => rfl
  | .whileStmt _ _ body => by
    rw [Stmt.relabel, Stmt.nested, Stmt.nested, Block.statements_relabel body]
  | .ifStmt _ _ consequent none _ => by
    rw [Stmt.relabel, Stmt.nested, Stmt.nested, Block.statements_relabel consequent]
  | .ifStmt _ _ consequent (some alternate) _ => by
    rw [Stmt.relabel, Stmt.nested, Stmt.nested, Block.statements_relabel consequent,
      Block.statements_relabel alternate, List.map_append]
  | .tryStmt _ block handler none _ => by
    rw [Stmt.relabel, Stmt.nested, Stmt.nested, Block.statements_relabel block,
      Block.statements_relabel handler, List.map_append]
  | .tryStmt _ block handler (some finalizer) _ => by
    rw [Stmt.relabel, Stmt.nested, Stmt.nested, Block.statements_relabel block,
      Block.statements_relabel handler, Block.statements_relabel finalizer, List.map_append,
      List.map_append]
  | .blockStmt block => by
    rw [Stmt.relabel, Stmt.nested, Stmt.nested, Block.statements_relabel block]
theorem Block.statements_relabel :
    (b : Block) → (b.relabel f).statements = b.statements.map (Stmt.relabel f)
  | ⟨_, body⟩ => by
    rw [Block.relabel, Block.statements, Block.statements, Stmt.flatten_relabel body]
theorem Stmt.flatten_relabel : (ss : List Stmt) →
    Stmt.flatten (Stmt.relabelAll f ss) = (Stmt.flatten ss).map (Stmt.relabel f)
  | [] => rfl
  | s :: rest => by
    rw [Stmt.relabelAll, Stmt.flatten, Stmt.flatten, Stmt.nested_relabel s,
      Stmt.flatten_relabel rest, List.map_cons, List.map_append]
end

/-- The statements of a relabelled program are its statements, relabelled, in the same order. -/
theorem Program.statements_relabel (p : Program) :
    (p.relabel f).statements = p.statements.map (Stmt.relabel f) := by
  rw [Program.statements, Program.block_relabel]
  exact Block.statements_relabel f p.block

theorem Program.accesses_relabel (observers : List (Option String)) (p : Program) :
    (p.relabel f).accesses observers = (p.accesses observers).map (Access.relabel f) := by
  rw [Program.accesses, Program.statements_relabel, Program.accesses, List.flatMap_map,
    List.map_flatMap]
  exact congrArg (fun g => List.flatMap g p.statements)
    (funext fun s => Stmt.accesses_relabel f observers s)

end Walks

/-! ### Labels -/

/-- A renumbering keeps the order of offsets. -/
def KeepsOrder (f : Int → Int) : Prop :=
  ∀ a b : Int, a < b → f a < f b

namespace KeepsOrder

variable {f : Int → Int} (hf : KeepsOrder f) {a b : Int}
include hf

theorem lt_iff_lt : f a < f b ↔ a < b := by
  refine ⟨fun h => ?_, hf a b⟩
  rcases Int.lt_trichotomy a b with hab | rfl | hba
  · exact hab
  · exact absurd h (Int.lt_irrefl _)
  · exact absurd (Int.lt_trans h (hf b a hba)) (Int.lt_irrefl _)

theorem le_iff_le : f a ≤ f b ↔ a ≤ b := by
  rw [← Int.not_lt, ← Int.not_lt, hf.lt_iff_lt]

theorem eq_iff : f a = f b ↔ a = b := by
  refine ⟨fun h => ?_, congrArg f⟩
  have hle : a ≤ b := hf.le_iff_le.mp (Int.le_of_eq h)
  have hge : b ≤ a := hf.le_iff_le.mp (Int.le_of_eq h.symm)
  exact Int.le_antisymm hle hge

end KeepsOrder

/-- A malformed tree with another offset. -/
def Malformed.relabel (f : Int → Int) (m : Malformed) : Malformed :=
  { m with offset := m.offset.map f }

section Labels

variable {f : Int → Int} (hf : KeepsOrder f)
include hf

theorem lookup_relabel (seen : List (Int × Json)) (label : Int) :
    (seen.map (Prod.map f id)).lookup (f label) = seen.lookup label := by
  induction seen with
  | nil => rfl
  | cons row rest ih =>
    obtain ⟨l, kind⟩ := row
    have hiff : (f label == f l) = (label == l) := by
      rw [Bool.eq_iff_iff, beq_iff_eq, beq_iff_eq, hf.eq_iff]
    simp only [List.map_cons, Prod.map, List.lookup_cons, hiff, id, ih]

/-- Labels are taken in a relabelled program exactly where they are taken in the program. -/
theorem Stmt.labelsFrom_relabel (ss : List Stmt) (seen : List (Int × Json)) :
    Stmt.labelsFrom (seen.map (Prod.map f id)) (ss.map (Stmt.relabel f)) =
      ((Stmt.labelsFrom seen ss).map (List.map (Prod.map f id))).mapError (Malformed.relabel f) := by
  induction ss generalizing seen with
  | nil => rfl
  | cons s rest ih =>
    obtain ⟨hpoint, hdenotes⟩ := s.point?_relabel f
    obtain ⟨-, hkind⟩ := s.head_relabel f
    rw [List.map_cons, Stmt.labelsFrom, Stmt.labelsFrom, hpoint]
    rcases s.point? with - | label
    · exact ih seen
    simp only [Option.map_some, lookup_relabel hf]
    rcases seen.lookup label with - | owner
    · have hmore : seen.map (Prod.map f id) ++ [(f label, (s.relabel f).pointKind)] =
          (seen ++ [(label, s.pointKind)]).map (Prod.map f id) := by
        rw [List.map_append, hdenotes]
        rfl
      show Stmt.labelsFrom (_ ++ [_]) _ = _
      rw [hmore]
      exact ih _
    · show Except.error (Malformed.mk (s.relabel f).kind.display _ _) = _
      rw [hkind]
      rfl

theorem Program.labels_relabel (p : Program) :
    (p.relabel f).labels =
      (p.labels.map (List.map (Prod.map f id))).mapError (Malformed.relabel f) := by
  rw [Program.labels, Program.statements_relabel]
  exact Stmt.labelsFrom_relabel hf p.statements []

end Labels

/-! ### Fragments -/

namespace Fragment

/-- A piece of a flow graph over other labels. -/
def relabel (f : Label → Label) (g : Fragment) : Fragment where
  initial := g.initial.map f
  finals := g.finals.map f
  flows := g.flows.map (Prod.map f f)
  throwAt := g.throwAt.map f
  breaks := g.breaks.map f
  continues := g.continues.map f
  raises := g.raises.map f
  reachesExit := g.reachesExit
  entries := g.entries.map (Prod.map f f)

section Operations

variable {f : Label → Label}

theorem initial_relabel_of_none {g : Fragment} (h : g.initial = none) :
    (g.relabel f).initial = none := by
  rw [relabel, h]
  rfl

theorem initial_relabel_of_some {g : Fragment} {entry : Label} (h : g.initial = some entry) :
    (g.relabel f).initial = some (f entry) := by
  rw [relabel, h]
  rfl

@[simp] theorem isEmpty_relabel (g : Fragment) : (g.relabel f).isEmpty = g.isEmpty :=
  Option.isNone_map

theorem exits_relabel (g : Fragment) : (g.relabel f).exits = g.exits.map f := by
  rw [exits, exits]
  show (if g.reachesExit then g.finals.map f else []) = _
  split <;> rfl

theorem andThen_relabel (g next : Fragment) (offset : Int) :
    (g.relabel f).andThen (f offset) (next.relabel f) = (g.andThen offset next).relabel f := by
  rcases hn : next.initial with - | entry
  · rw [andThen_of_none _ (initial_relabel_of_none hn), andThen_of_none _ hn]
  · rw [andThen_of_some _ (initial_relabel_of_some hn), andThen_of_some _ hn, exits_relabel]
    simp only [relabel, List.map_append, List.map_map, Option.map_or, Option.map_some,
      List.map_cons, List.map_nil, Prod.map, Function.comp_def]

theorem branchExits_relabel (test : Label) (branch : Fragment) :
    branchExits (f test) (branch.relabel f) = (branchExits test branch).map f := by
  rw [branchExits, branchExits, isEmpty_relabel, exits_relabel]
  split <;> rfl

variable (hf : KeepsOrder f)
include hf

theorem unique_relabel (labels : List Label) : unique (labels.map f) = (unique labels).map f :=
  unique_map fun _ _ _ _ he => hf.eq_iff.mp he

theorem choice_relabel (test : Label) (withoutElse : Bool) (branches : List Fragment) :
    choice (f test) withoutElse (branches.map (relabel f)) =
      (choice test withoutElse branches).relabel f := by
  have hfinals : (branches.map (relabel f)).flatMap (branchExits (f test)) ++
      (if withoutElse then [f test] else []) =
      (branches.flatMap (branchExits test) ++ if withoutElse then [test] else []).map f := by
    rw [List.map_append, List.flatMap_map, List.map_flatMap]
    simp only [branchExits_relabel]
    cases withoutElse <;> rfl
  have hflows : (branches.map (relabel f)).flatMap (fun b => b.initial.toList.map (f test, ·)) =
      (branches.flatMap fun b => b.initial.toList.map (test, ·)).map (Prod.map f f) := by
    rw [List.flatMap_map, List.map_flatMap]
    refine congrArg (fun g => List.flatMap g branches) (funext fun b => ?_)
    rw [relabel]
    cases b.initial <;> rfl
  have hthrow : (branches.map (relabel f)).head?.bind (·.throwAt) =
      (branches.head?.bind (·.throwAt)).map f := by
    cases branches <;> rfl
  rw [choice, hfinals, unique_relabel hf, hflows, hthrow, choice]
  simp only [relabel, List.map_append, List.flatMap_map, List.map_flatMap, List.all_map,
    List.any_map, Function.comp_def, Option.isSome_map, Option.map_some, apply_ite (Option.map f),
    Option.map_none, List.map_nil, isEmpty, Option.isNone_map]

theorem loop_relabel (test : Label) (body : Fragment) :
    loop (f test) (body.relabel f) = (loop test body).relabel f := by
  rcases hb : body.initial with - | entry
  · rw [loop_of_none _ (initial_relabel_of_none hb), loop_of_none _ hb]
    rfl
  · have hfinals : f test :: (body.relabel f).breaks = (test :: body.breaks).map f := rfl
    have hback : (body.relabel f).exits ++ (body.relabel f).continues =
        (body.exits ++ body.continues).map f := by
      rw [exits_relabel, List.map_append]
      rfl
    rw [loop_of_some _ (initial_relabel_of_some hb), loop_of_some _ hb, hfinals, hback,
      unique_relabel hf, unique_relabel hf]
    simp only [relabel, List.map_append, List.map_cons, List.map_map, Option.map_some,
      Option.map_none, List.map_nil, Prod.map, Function.comp_def]

/-- The cut at the first sure `throw` is where offsets are compared. -/
theorem sources_relabel (block : Fragment) :
    (block.relabel f).sources = block.sources.map f := by
  rw [sources, sources, ← unique_relabel hf, List.map_append, List.map_map]
  refine congrArg (fun reached => unique (reached ++ block.raises.map f)) ?_
  show ((block.entries.map (Prod.map f f)).takeWhile _).map (·.2) = _
  rw [List.takeWhile_map, List.map_map]
  refine congrArg (fun p => (block.entries.takeWhile p).map _) (funext fun e => ?_)
  dsimp only [relabel]
  rcases block.throwAt with - | label
  · rfl
  · exact decide_eq_decide.mpr hf.le_iff_le

theorem guardExits_relabel (block handler : Fragment) :
    guardExits (block.relabel f) (handler.relabel f) = (guardExits block handler).map f := by
  rw [guardExits, guardExits, ← unique_relabel hf, exits_relabel, isEmpty_relabel,
    sources_relabel hf, exits_relabel, List.map_append]
  split <;> rfl

theorem handled_relabel (block handler : Fragment) :
    handled (block.relabel f) (handler.relabel f) = (handled block handler).map (Prod.map f f) := by
  rcases hh : handler.initial with - | first
  · rw [handled, initial_relabel_of_none hh, handled, hh]
    rfl
  · rw [handled, initial_relabel_of_some hh, handled, hh, sources_relabel hf]
    simp only [List.map_append, List.map_map, Prod.map, Function.comp_def, relabel]

theorem guarded_relabel (block handler finalizer : Fragment) :
    guarded (block.relabel f) (handler.relabel f) (finalizer.relabel f) =
      (guarded block handler finalizer).relabel f := by
  rcases hi : block.initial with - | entry
  · rw [guarded_of_empty _ _ (initial_relabel_of_none hi), guarded_of_empty _ _ hi]
  have hi' := initial_relabel_of_some (f := f) hi
  have hthrow : rethrown (block.relabel f) (handler.relabel f) =
      (rethrown block handler).map f := by
    rw [rethrown, rethrown]
    show (if (block.throwAt.map f).isSome then handler.throwAt.map f else none) = _
    rw [Option.isSome_map]
    split <;> rfl
  rcases hlast : finalizer.initial with - | last
  · rw [guarded_open _ hi' (initial_relabel_of_none hlast), guarded_open _ hi hlast, guardExits_relabel hf,
      handled_relabel hf, hthrow]
    simp only [relabel, List.map_append, Option.map_some, List.isEmpty_map, List.map_nil]
  · have hinto : guardExits (block.relabel f) (handler.relabel f) ++ (handler.relabel f).raises =
        (guardExits block handler ++ handler.raises).map f := by
      rw [guardExits_relabel hf, List.map_append]
      rfl
    have hraises : (handler.relabel f).raises ++ (finalizer.relabel f).raises =
        (handler.raises ++ finalizer.raises).map f := List.map_append.symm
    rw [guarded_closed _ hi' (initial_relabel_of_some hlast), guarded_closed _ hi hlast, hinto,
      hraises, guardExits_relabel hf, handled_relabel hf, hthrow, unique_relabel hf, unique_relabel hf]
    simp only [relabel, List.map_append, List.map_map, Option.map_some, List.isEmpty_map,
      List.map_nil, Function.comp_def, Prod.map, Option.map_or, Option.map_none,
      apply_ite (Option.map f), apply_ite (List.map f)]

end Operations

end Fragment

/-! ### Events -/

/-- Something noticed at another offset. -/
def Event.relabel (f : Int → Int) : Event → Event
  | .unreachable kind offset => .unreachable kind (f offset)
  | .dead region offset => .dead region (f offset)
  | .skipped kind offset => .skipped kind (f offset)

theorem Event.drop_relabel (f : Int → Int) (region : Region) (b : Block) :
    Event.drop region (b.relabel f) = (Event.drop region b).map (Event.relabel f) := by
  rw [Event.drop, Event.drop, Block.isEmpty_relabel, Block.offset_relabel]
  split <;> rfl

theorem Stmt.decided?_relabel (f : Int → Int) (folded : Bool) (test : Expr) :
    Stmt.decided? folded (test.relabel f) = Stmt.decided? folded test := by
  rw [Stmt.decided?, Stmt.decided?, Expr.truth?_relabel]

/-! ### The builder -/

section Builder

variable {f : Int → Int} (hf : KeepsOrder f)
include hf

theorem Stmt.fragment_relabel_of_blocks (s : Stmt)
    (ih : ∀ b ∈ s.blocks, (b.relabel f).fragment = b.fragment.relabel f) :
    (s.relabel f).fragment = s.fragment.relabel f := by
  rcases s with _ | _ | ⟨offset, test, body⟩ | ⟨offset, test, consequent, _ | alternate, folded⟩ |
    _ | _ | _ | ⟨offset, block, handler, _ | finalizer, param⟩ | b | ⟨offset, tag⟩
  case whileStmt =>
    have hbody := ih body (List.mem_singleton_self body)
    rw [Stmt.relabel, Stmt.fragment, Stmt.fragment, Expr.truth?_relabel, Expr.offset_relabel, hbody,
      Fragment.loop_relabel hf]
    split <;> rfl
  case ifStmt.none =>
    have hconsequent := ih consequent (List.mem_singleton_self consequent)
    rw [Stmt.relabel, Stmt.fragment, Stmt.fragment, Stmt.decided?_relabel, Expr.offset_relabel,
      ← Fragment.choice_relabel hf, hconsequent]
    rcases Stmt.decided? folded test with - | - | - <;> rfl
  case ifStmt.some =>
    have hconsequent := ih consequent (List.mem_cons_self)
    have halternate := ih alternate (List.mem_cons_of_mem _ (List.mem_singleton_self alternate))
    rw [Stmt.relabel, Stmt.fragment, Stmt.fragment, Stmt.decided?_relabel, Expr.offset_relabel,
      ← Fragment.choice_relabel hf, hconsequent, halternate]
    rcases Stmt.decided? folded test with - | - | - <;> rfl
  case tryStmt.none =>
    have hblock := ih block List.mem_cons_self
    have hhandler := ih handler (List.mem_cons_of_mem _ List.mem_cons_self)
    rw [Stmt.relabel, Stmt.fragment, Stmt.fragment, hblock, hhandler]
    exact Fragment.guarded_relabel hf _ _ .empty
  case tryStmt.some =>
    have hblock := ih block List.mem_cons_self
    have hhandler := ih handler (List.mem_cons_of_mem _ List.mem_cons_self)
    have hfinalizer := ih finalizer
      (List.mem_cons_of_mem _ (List.mem_cons_of_mem _ (List.mem_singleton_self finalizer)))
    rw [Stmt.relabel, Stmt.fragment, Stmt.fragment, hblock, hhandler, hfinalizer]
    exact Fragment.guarded_relabel hf _ _ _
  case blockStmt =>
    rw [Stmt.relabel, Stmt.fragment, Stmt.fragment]
    exact ih b (List.mem_singleton_self b)
  all_goals rfl

omit hf in
theorem Stmt.sequence_relabel {ss : List Stmt}
    (hss : ∀ s ∈ ss, (s.relabel f).fragment = s.fragment.relabel f) (g : Fragment) :
    Stmt.sequence (g.relabel f) (Stmt.relabelAll f ss) = (Stmt.sequence g ss).relabel f := by
  induction ss generalizing g with
  | nil => rw [Stmt.relabelAll, Stmt.sequence, Stmt.sequence]
  | cons s rest ih =>
    have hnext : (g.relabel f).andThen (s.relabel f).offset (s.relabel f).fragment =
        (g.andThen s.offset s.fragment).relabel f := by
      rw [(s.head_relabel f).1, hss s List.mem_cons_self, Fragment.andThen_relabel]
    rw [Stmt.relabelAll, Stmt.sequence, Stmt.sequence, hnext,
      ih fun r hr => hss r (List.mem_cons_of_mem s hr)]
    show (if g.reachesExit then _ else _) = _
    split <;> rfl

omit hf in
theorem Block.fragment_relabel_of_body (b : Block)
    (ih : ∀ s ∈ b.body, (s.relabel f).fragment = s.fragment.relabel f) :
    (b.relabel f).fragment = b.fragment.relabel f := by
  obtain ⟨offset, body⟩ := b
  rw [Block.relabel, Block.fragment, Block.fragment]
  exact Stmt.sequence_relabel ih .empty

theorem Stmt.fragment_relabel (s : Stmt) : (s.relabel f).fragment = s.fragment.relabel f :=
  Stmt.of_blocks (Stmt.fragment_relabel_of_blocks hf) Block.fragment_relabel_of_body s

/-- The fragment of a relabelled block is its fragment, relabelled. -/
theorem Block.fragment_relabel (b : Block) : (b.relabel f).fragment = b.fragment.relabel f :=
  Block.of_body (Stmt.fragment_relabel_of_blocks hf) Block.fragment_relabel_of_body b

theorem Stmt.events_relabel_of_blocks (s : Stmt)
    (ih : ∀ b ∈ s.blocks, (b.relabel f).events = b.events.map (Event.relabel f)) :
    (s.relabel f).events = s.events.map (Event.relabel f) := by
  rcases s with _ | _ | ⟨offset, test, body⟩ | ⟨offset, test, consequent, _ | alternate, folded⟩ |
    _ | _ | _ | ⟨offset, block, handler, _ | finalizer, param⟩ | b | ⟨offset, tag⟩
  case whileStmt =>
    have hbody := ih body (List.mem_singleton_self body)
    rw [Stmt.relabel, Stmt.events, Stmt.events, Expr.truth?_relabel, hbody, Event.drop_relabel]
    split <;> rfl
  case ifStmt.none =>
    have hconsequent := ih consequent (List.mem_singleton_self consequent)
    rw [Stmt.relabel, Stmt.events, Stmt.events, Stmt.decided?_relabel, hconsequent,
      Event.drop_relabel]
    rcases Stmt.decided? folded test with - | - | - <;> rfl
  case ifStmt.some =>
    have hconsequent := ih consequent (List.mem_cons_self)
    have halternate := ih alternate (List.mem_cons_of_mem _ (List.mem_singleton_self alternate))
    rw [Stmt.relabel, Stmt.events, Stmt.events, Stmt.decided?_relabel, hconsequent, halternate,
      Event.drop_relabel, Event.drop_relabel]
    rcases Stmt.decided? folded test with - | - | - <;> exact List.map_append.symm
  case tryStmt.none =>
    have hblock := ih block List.mem_cons_self
    have hhandler := ih handler (List.mem_cons_of_mem _ List.mem_cons_self)
    rw [Stmt.relabel, Stmt.events, Stmt.events, hblock, hhandler, Event.drop_relabel,
      Block.fragment_relabel hf, Fragment.isEmpty_relabel, List.map_append]
    split <;> rfl
  case tryStmt.some =>
    have hblock := ih block List.mem_cons_self
    have hhandler := ih handler (List.mem_cons_of_mem _ List.mem_cons_self)
    have hfinalizer := ih finalizer
      (List.mem_cons_of_mem _ (List.mem_cons_of_mem _ (List.mem_singleton_self finalizer)))
    rw [Stmt.relabel, Stmt.events, Stmt.events, hblock, hhandler, hfinalizer, Event.drop_relabel,
      Block.fragment_relabel hf, Fragment.isEmpty_relabel, List.map_append, List.map_append]
    split <;> rfl
  case blockStmt =>
    rw [Stmt.relabel, Stmt.events, Stmt.events]
    exact ih b (List.mem_singleton_self b)
  all_goals rfl

theorem Stmt.sequenceEvents_relabel {ss : List Stmt}
    (hss : ∀ s ∈ ss, (s.relabel f).events = s.events.map (Event.relabel f)) (g : Fragment) :
    Stmt.sequenceEvents (g.relabel f) (Stmt.relabelAll f ss) =
      (Stmt.sequenceEvents g ss).map (Event.relabel f) := by
  induction ss generalizing g with
  | nil => rw [Stmt.relabelAll, Stmt.sequenceEvents, Stmt.sequenceEvents, List.map_nil]
  | cons s rest ih =>
    have hrest := fun g => ih (fun r hr => hss r (List.mem_cons_of_mem s hr)) g
    obtain ⟨hoffset, hkind⟩ := s.head_relabel f
    rw [Stmt.relabelAll, Stmt.sequenceEvents, Stmt.sequenceEvents, hoffset, hkind,
      Stmt.fragment_relabel hf, Fragment.andThen_relabel, hrest, hrest, hss s List.mem_cons_self]
    show (if g.reachesExit then _ else _) = _
    split
    · exact List.map_append.symm
    · rfl

theorem Block.events_relabel_of_body (b : Block)
    (ih : ∀ s ∈ b.body, (s.relabel f).events = s.events.map (Event.relabel f)) :
    (b.relabel f).events = b.events.map (Event.relabel f) := by
  obtain ⟨offset, body⟩ := b
  rw [Block.relabel, Block.events, Block.events]
  exact Stmt.sequenceEvents_relabel hf ih .empty

/-- What is noticed about a relabelled block is noticed about the block, at other offsets. -/
theorem Block.events_relabel (b : Block) : (b.relabel f).events = b.events.map (Event.relabel f) :=
  Block.of_body (Stmt.events_relabel_of_blocks hf) (Block.events_relabel_of_body hf) b

end Builder

end Liveness
