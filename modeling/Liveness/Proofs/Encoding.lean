/-
Liveness/Proofs/Encoding.lean

Programs as documents.  A program is written down node by node, and reading the
document gives the program back (`Program.ofEstree_encode`).  A format settles what
a document leaves open: the member in which an operation has its operands, and for
each block that can do without braces whether it has them.

Not every program comes out of a document.  In one that does, no statement is
folded, the tag of an operation is not one that is read in another way, its operands
stand in the order of the text, and what is outside the analysed language has a type
that says so (`Program.Normal`).
-/
import Liveness.Proofs.DeadEdits
import Liveness.Proofs.ReadRules
import Liveness.Proofs.Reports
import Liveness.Proofs.Walks
import Liveness.Syntax.Part

namespace Liveness

open Estree

/-! ### Documents of expressions -/

/-- A node with a type, a start and further members. -/
def Estree.node (type : Json) (o : Int) (members : List (String × Json)) : Json :=
  .obj (("type", type) :: ("start", .int o) :: members)

/-- What a document leaves open: the member that holds the operands of an operation, and whether
the block at an address is written without braces if it can be. -/
structure Estree.Format where
  key : Expr → String
  bare : List Step → Bool
  key_free : ∀ e, key e ∉ plainKeys

mutual
/-- The document of an expression. -/
def Expr.encode (f : Format) : Expr → Json
  | .identifier o name => node (.str "Identifier") o [("name", .str name)]
  | .literal o value raw => node (.str "Literal") o [("value", value), ("raw", raw)]
  | .member o object property computed =>
    node (.str "MemberExpression") o [("object", object.encode f),
      ("property", property.encode f), ("computed", .bool computed)]
  | .call o callee arguments =>
    node (.str "CallExpression") o [("callee", callee.encode f),
      ("arguments", .arr (Expr.encodeArguments f arguments))]
  | .assignment o operator target value =>
    node (.str "AssignmentExpression") o [("operator", operator), ("left", target.encode f),
      ("right", value.encode f)]
  | .update o operator target =>
    node (.str "UpdateExpression") o [("operator", operator), ("argument", target.encode f)]
  | .operation o tag operator operands =>
    node tag o [("operator", operator),
      (f.key (.operation o tag operator operands), .arr (Expr.encodeOperands f operands))]
/-- The documents of the arguments of a call, `null` for one that is left out. -/
def Expr.encodeArguments (f : Format) : List (Option Expr) → List Json
  | [] => []
  | none :: rest => .null :: Expr.encodeArguments f rest
  | some e :: rest => e.encode f :: Expr.encodeArguments f rest
/-- The documents of the operands of an operation. -/
def Expr.encodeOperands (f : Format) : List Expr → List Json
  | [] => []
  | e :: rest => e.encode f :: Expr.encodeOperands f rest
end

/-- The document of an expression that may be left out. -/
def Expr.encodeOptional (f : Format) : Option Expr → Json
  | none => .null
  | some e => e.encode f

/-! ### Documents of statements -/

/-- The document of a name, `null` if there is none. -/
def Estree.nameNode : Json → Json
  | .null => .null
  | name => .obj [("type", .str "Identifier"), ("name", name)]

/-- The document of one variable of a declaration. -/
def Declarator.encode (f : Format) (d : Declarator) : Json :=
  node (.str "VariableDeclarator") d.offset
    [("id", nameNode d.name), ("init", Expr.encodeOptional f d.init)]

/-- The document of a catch clause with the document of its body. -/
def Estree.catchNode (o : Int) (param body : Json) : Json :=
  node (.str "CatchClause") o [("param", nameNode param), ("body", body)]

/-- The document of some statements between braces. -/
def Estree.braces (o : Int) (items : List Json) : Json :=
  node (.str "BlockStatement") o [("body", .arr items)]

/-- Whether a statement is a pair of bare braces. -/
def Stmt.isBraces : Stmt → Bool
  | .blockStmt _ => true
  | _ => false

/-- Whether a block can do without braces: it holds one statement that is no block and starts where
the block does. -/
def Block.isLone : Block → Bool
  | ⟨o, [s]⟩ => s.offset == o && !s.isBraces
  | _ => false

/-- The document of the block at an address with the documents of its statements. -/
def Estree.Format.wrap (f : Format) (address : List Step) (b : Block) : List Json → Json
  | [j] => if f.bare address && b.isLone then j else braces b.offset [j]
  | items => braces b.offset items

mutual
/-- The document of the statement at an address. -/
def Stmt.encode (f : Format) (address : List Step) : Stmt → Json
  | .exprStmt o e => node (.str "ExpressionStatement") o [("expression", e.encode f)]
  | .declStmt o ds =>
    node (.str "VariableDeclaration") o [("declarations", .arr (ds.map (Declarator.encode f)))]
  | .whileStmt o test body =>
    node (.str "WhileStatement") o [("test", test.encode f),
      ("body", body.encode f (address ++ [.child "body"]))]
  | .ifStmt o test consequent none _ =>
    node (.str "IfStatement") o [("test", test.encode f),
      ("consequent", consequent.encode f (address ++ [.child "consequent"])), ("alternate", .null)]
  | .ifStmt o test consequent (some alternate) _ =>
    node (.str "IfStatement") o [("test", test.encode f),
      ("consequent", consequent.encode f (address ++ [.child "consequent"])),
      ("alternate", alternate.encode f (address ++ [.child "alternate"]))]
  | .throwStmt o argument =>
    node (.str "ThrowStatement") o [("argument", Expr.encodeOptional f argument)]
  | .breakStmt o label => node (.str "BreakStatement") o [("label", nameNode label)]
  | .continueStmt o label => node (.str "ContinueStatement") o [("label", nameNode label)]
  | .tryStmt o block handler none param =>
    node (.str "TryStatement") o [("block", block.encode f (address ++ [.child "block"])),
      ("handler", catchNode handler.offset param (handler.encode f (address ++ [.child "handler"]))),
      ("finalizer", .null)]
  | .tryStmt o block handler (some finalizer) param =>
    node (.str "TryStatement") o [("block", block.encode f (address ++ [.child "block"])),
      ("handler", catchNode handler.offset param (handler.encode f (address ++ [.child "handler"]))),
      ("finalizer", finalizer.encode f (address ++ [.child "finalizer"]))]
  | .blockStmt ⟨o, body⟩ => braces o (Stmt.encodeBody f address 0 body)
  | .unsupported o tag => node tag o []
/-- The document of the block at an address. -/
def Block.encode (f : Format) (address : List Step) : Block → Json
  | ⟨o, body⟩ => f.wrap address ⟨o, body⟩ (Stmt.encodeBody f address 0 body)
/-- The documents of the statements, from place `i` on, of the block at an address. -/
def Stmt.encodeBody (f : Format) (address : List Step) (i : Nat) : List Stmt → List Json
  | [] => []
  | s :: rest =>
    s.encode f (address ++ [.child "body", .item i]) :: Stmt.encodeBody f address (i + 1) rest
end

/-- The document of a program. -/
def Program.encode (f : Format) (p : Program) : Json :=
  node (.str "Program") p.offset [("body", .arr (Stmt.encodeBody f [] 0 p.body))]

/-! ### Programs that come out of documents -/

/-- An expression, what is inside it left aside, as the reader makes it. -/
def Expr.Regular : Expr → Prop
  | .operation _ tag _ operands =>
    ExprForm.ofType tag = .operation ∧ operands.Pairwise fun a b => a.offset ≤ b.offset
  | _ => True

/-- A statement, what is inside it left aside, as the reader makes it. -/
def Stmt.Regular : Stmt → Prop
  | .ifStmt _ _ _ _ folded => folded = false
  | .unsupported _ tag => tag.kind = .str ∧ StmtForm.ofType tag = .unknown
  | _ => True

/-- A statement with its expressions, statements nested in it left aside, as the reader makes
it. -/
def Stmt.Normal (s : Stmt) : Prop :=
  s.Regular ∧ ∀ e ∈ s.expressions, e.Regular

/-- Every statement and every expression of a program is as the reader makes it. -/
def Program.Normal (p : Program) : Prop :=
  ∀ s ∈ p.statements, s.Normal

instance : DecidablePred Expr.Regular
  | .operation _ tag _ operands => inferInstanceAs (Decidable
      (ExprForm.ofType tag = .operation ∧ operands.Pairwise fun a b => a.offset ≤ b.offset))
  | .identifier .. | .literal .. | .member .. | .call .. | .assignment .. | .update .. =>
    inferInstanceAs (Decidable True)

instance : DecidablePred Stmt.Regular
  | .ifStmt _ _ _ _ folded => inferInstanceAs (Decidable (folded = false))
  | .unsupported _ tag =>
    inferInstanceAs (Decidable (tag.kind = .str ∧ StmtForm.ofType tag = .unknown))
  | .exprStmt .. | .declStmt .. | .whileStmt .. | .throwStmt .. | .breakStmt ..
  | .continueStmt .. | .tryStmt .. | .blockStmt .. => inferInstanceAs (Decidable True)

instance (p : Program) : Decidable p.Normal :=
  inferInstanceAs (Decidable (∀ s ∈ p.statements, s.Regular ∧ ∀ e ∈ s.expressions, e.Regular))

/-! ### Depth of documents -/

section Depth

variable {j : Json} {depth : Nat}

theorem exists_succ_of_node (h : isNode j = true) (hdepth : j.depth ≤ depth) :
    ∃ d, depth = d + 1 := by
  obtain ⟨tag, htag⟩ := Option.isSome_iff_exists.mp h
  have hbelow := Json.depth_get?_lt htag
  exact ⟨depth - 1, by omega⟩

theorem Json.depth_field_le_self (j : Json) (key : String) : (j.field key).depth ≤ j.depth := by
  rw [Json.field]
  rcases hget : j.get? key with - | v
  · exact Nat.zero_le _
  · exact Nat.le_of_lt (Json.depth_get?_lt hget)

theorem Json.depth_field_le (h : j.depth ≤ depth + 1) (key : String) :
    (j.field key).depth ≤ depth := by
  rw [Json.field]
  rcases hget : j.get? key with - | v
  · exact Nat.zero_le _
  · have hbelow := Json.depth_get?_lt hget
    exact Nat.le_of_lt_succ (Nat.lt_of_lt_of_le hbelow h)

theorem Json.depth_le_depthItems {x : Json} {items : List Json} (h : x ∈ items) :
    x.depth ≤ Json.depthItems items := by
  induction items with
  | nil => cases h
  | cons j rest ih =>
    rw [Json.depthItems]
    rcases List.mem_cons.mp h with rfl | h
    · exact Nat.le_max_left _ _
    · exact Nat.le_trans (ih h) (Nat.le_max_right _ _)

theorem Json.depth_le_depthMembers {key : String} {v : Json} {members : List (String × Json)}
    (h : (key, v) ∈ members) : v.depth ≤ Json.depthMembers members := by
  induction members with
  | nil => cases h
  | cons m rest ih =>
    obtain ⟨k, w⟩ := m
    rw [Json.depthMembers]
    rcases List.mem_cons.mp h with h | h
    · cases h
      exact Nat.le_max_left _ _
    · exact Nat.le_trans (ih h) (Nat.le_max_right _ _)

theorem Json.depth_le_of_mem_elements {x : Json} (h : x ∈ j.elements) : x.depth ≤ j.depth := by
  cases j with
  | arr items =>
    rw [Json.depth]
    exact Nat.le_succ_of_le (Json.depth_le_depthItems h)
  | _ => cases h

theorem depth_nodesIn_le {x : Json} (h : x ∈ nodesIn j) : x.depth ≤ j.depth := by
  unfold nodesIn at h
  split at h
  next items => exact Json.depth_le_of_mem_elements (List.mem_of_mem_filter h)
  next =>
    split at h
    · obtain rfl := List.mem_singleton.mp h
      exact Nat.le_refl _
    · cases h

/-- The nodes among the members of a node lie less deep. -/
theorem depth_childNodes_lt {x : Json} (h : x ∈ childNodes j) : x.depth < j.depth := by
  cases j with
  | obj members =>
    obtain ⟨⟨key, v⟩, hmember, hx⟩ := List.mem_flatMap.mp h
    dsimp only at hx
    split at hx
    · cases hx
    · rw [Json.depth]
      have hmembers := Json.depth_le_depthMembers hmember
      exact Nat.lt_succ_of_le (Nat.le_trans (depth_nodesIn_le hx) hmembers)
  | _ => cases h

end Depth

/-! ### Reading expressions back -/

section Expressions

variable {f : Format} {e : Expr}

/-- What is inside a part of an expression is inside the expression. -/
theorem Expr.subexpressions_subset {x : Expr} (h : x ∈ e.parts) :
    x.subexpressions ⊆ e.subexpressions := by
  intro y hy
  have hparts : y ∈ e.parts.flatMap (·.subexpressions) := List.mem_flatMap.mpr ⟨x, h, hy⟩
  rw [Expr.subexpressions_eq]
  exact List.mem_cons_of_mem _ hparts

theorem Expr.encodeOperands_eq (f : Format) (operands : List Expr) :
    Expr.encodeOperands f operands = operands.map (·.encode f) := by
  induction operands with
  | nil => rfl
  | cons e rest ih => rw [Expr.encodeOperands, ih, List.map_cons]

theorem Expr.encodeArguments_eq (f : Format) (arguments : List (Option Expr)) :
    Expr.encodeArguments f arguments = arguments.map (Expr.encodeOptional f) := by
  induction arguments with
  | nil => rfl
  | cons argument rest ih =>
    cases argument with
    | none => rw [Expr.encodeArguments, ih]; rfl
    | some e => rw [Expr.encodeArguments, ih]; rfl

theorem Expr.isNode_encode (f : Format) (e : Expr) : isNode (e.encode f) = true := by
  cases e <;> rfl

theorem Expr.start_encode (f : Format) (e : Expr) :
    (e.encode f).field "start" = .int e.offset := by
  cases e <;> rfl

/-- The nodes among the members of an operation are its operands. -/
theorem childNodes_operation (f : Format) (o : Int) (tag operator : Json) (operands : List Expr) :
    childNodes ((Expr.operation o tag operator operands).encode f) =
      operands.map (·.encode f) := by
  have hkey := f.key_free (.operation o tag operator operands)
  have hfree : plainKeys.contains (f.key (.operation o tag operator operands)) = false := by
    simpa using hkey
  have hnodes : (operands.map (·.encode f)).filter isNode = operands.map (·.encode f) := by
    rw [List.filter_eq_self]
    intro x hx
    obtain ⟨e, -, rfl⟩ := List.mem_map.mp hx
    exact e.isNode_encode f
  -- type, start and operator are passed over
  rw [Expr.encode, node, childNodes, Expr.encodeOperands_eq]
  simp only [List.flatMap_cons, List.flatMap_nil, hfree, List.append_nil]
  rw [nodesIn, hnodes]
  rfl

/-- Operands in the order of the text are left in their order. -/
theorem inOrder_encode {operands : List Expr}
    (h : operands.Pairwise fun a b => a.offset ≤ b.offset) :
    inOrder (operands.map (·.encode f)) = operands.map (·.encode f) := by
  refine Sorting.stableBy_eq_self (List.pairwise_map.mpr (h.imp fun {a b} hab => ?_))
  refine decide_eq_false ?_
  show ¬ (place? (b.encode f)).getD 0 < (place? (a.encode f)).getD 0
  rw [place?_of_start (a.start_encode f), place?_of_start (b.start_encode f)]
  exact Int.not_lt.mpr hab

/-- An expression whose parts are as the reader makes them is read from its document. -/
theorem Expr.read_encode (f : Format) (e : Expr) (he : ∀ x ∈ e.subexpressions, x.Regular)
    {depth : Nat} (hdepth : (e.encode f).depth ≤ depth) : Expr.read depth (e.encode f) = .ok e := by
  revert depth he
  refine Expr.of_parts (P := fun e => (∀ x ∈ e.subexpressions, x.Regular) → ∀ {depth : Nat},
    (e.encode f).depth ≤ depth → Expr.read depth (e.encode f) = .ok e) ?_ e
  intro e ih he depth hdepth
  -- a node has some depth, so there is a rule to apply
  obtain ⟨depth, rfl⟩ := exists_succ_of_node (e.isNode_encode f) hdepth
  rw [Expr.read_eq_ok_iff]
  have hpart : ∀ x ∈ e.parts, ∀ key, (e.encode f).field key = x.encode f →
      Expr.read depth ((e.encode f).field key) = .ok x := by
    intro x hx key hkey
    have hbelow := Json.depth_field_le hdepth key
    rw [hkey] at hbelow ⊢
    exact ih x hx (fun y hy => he y (Expr.subexpressions_subset hx hy)) hbelow
  cases e with
  | identifier o name => exact ⟨.identifier, o, ⟨rfl, rfl, rfl⟩, .identifier rfl⟩
  | literal o value raw => exact ⟨.literal, o, ⟨rfl, rfl, rfl⟩, .literal⟩
  | member o object property computed =>
    refine ⟨.member, o, ⟨rfl, rfl, rfl⟩, .member ?_ ?_⟩
    · exact hpart object (by simp [Expr.parts]) "object" rfl
    · exact hpart property (by simp [Expr.parts]) "property" rfl
  | call o callee arguments =>
    refine ⟨.call, o, ⟨rfl, rfl, rfl⟩, .call ?_ (Or.inl ⟨_, rfl⟩) ?_⟩
    · exact hpart callee List.mem_cons_self "callee" rfl
    · show List.Forall₂ _ (Expr.encodeArguments f arguments) arguments
      rw [Expr.encodeArguments_eq, List.forall₂_map_left_iff, List.forall₂_same]
      intro argument hargument
      cases argument with
      | none => rfl
      | some x =>
        have hx : x ∈ (Expr.call o callee arguments).parts :=
          List.mem_cons_of_mem _ (List.mem_flatMap.mpr ⟨_, hargument, by simp⟩)
        refine Expr.readOptional_eq_ok_iff.mpr (.some ?_)
        refine ih x hx (fun y hy => he y (Expr.subexpressions_subset hx hy)) ?_
        have hitem : x.encode f ∈ ((Expr.call o callee arguments).encode f |>.field "arguments").elements := by
          show x.encode f ∈ Expr.encodeArguments f arguments
          rw [Expr.encodeArguments_eq]
          exact List.mem_map.mpr ⟨some x, hargument, rfl⟩
        exact Nat.le_trans (Json.depth_le_of_mem_elements hitem) (Json.depth_field_le hdepth _)
  | assignment o operator target value =>
    refine ⟨.assignment, o, ⟨rfl, rfl, rfl⟩, .assignment ?_ ?_⟩
    · exact hpart target (by simp [Expr.parts]) "left" rfl
    · exact hpart value (by simp [Expr.parts]) "right" rfl
  | update o operator target =>
    refine ⟨.update, o, ⟨rfl, rfl, rfl⟩, .update ?_⟩
    exact hpart target (by simp [Expr.parts]) "argument" rfl
  | operation o tag operator operands =>
    obtain ⟨htag, horder⟩ := he _ (Expr.mem_subexpressions_self _)
    refine ⟨.operation, o, ⟨rfl, htag, rfl⟩, .operation ?_⟩
    have hnodes := childNodes_operation f o tag operator operands
    rw [hnodes, inOrder_encode horder, List.forall₂_map_left_iff, List.forall₂_same]
    intro x hx
    refine ih x hx (fun y hy => he y (Expr.subexpressions_subset hx hy)) ?_
    have hnode : x.encode f ∈ childNodes ((Expr.operation o tag operator operands).encode f) := by
      rw [hnodes]
      exact List.mem_map.mpr ⟨x, hx, rfl⟩
    exact Nat.le_of_lt_succ (Nat.lt_of_lt_of_le (depth_childNodes_lt hnode) hdepth)

end Expressions

/-! ### Reading statements back -/

section Statements

variable {f : Format} {address : List Step} {depth : Nat}

theorem Expr.readOptional_encode {argument : Option Expr}
    (h : ∀ x ∈ argument.toList.flatMap (·.subexpressions), x.Regular)
    (hdepth : (Expr.encodeOptional f argument).depth ≤ depth) :
    Expr.readOptional depth (Expr.encodeOptional f argument) = .ok argument := by
  cases argument with
  | none => rfl
  | some e =>
    refine Expr.readOptional_eq_ok_iff.mpr (.some (Expr.read_encode f e ?_ hdepth))
    simpa using h

theorem memberOf_nameNode (name : Json) : memberOf (nameNode name) "name" = .ok name := by
  cases name <;> rfl

theorem plainName_nameNode (name : Json) : plainName (nameNode name) = name := by
  cases name <;> rfl

theorem paramName_catchNode (o : Int) (param body : Json) :
    paramName (catchNode o param body) = .ok param := by
  cases param <;> rfl

theorem Stmt.start_encode (f : Format) (address : List Step) (s : Stmt) :
    (s.encode f address).field "start" = .int s.offset := by
  rcases s with _ | _ | _ | ⟨_, _, _, _ | _, _⟩ | _ | _ | _ | ⟨_, _, _, _ | _, _⟩ | ⟨_, _⟩ | _ <;> rfl

/-- The document of a statement that is no pair of braces does not say that it is one. -/
theorem Stmt.type_encode {s : Stmt} (hs : s.Regular) (hbraces : s.isBraces = false) :
    ((s.encode f address).field "type").isText "BlockStatement" = false := by
  rcases s with _ | _ | _ | ⟨_, _, _, _ | _, _⟩ | _ | _ | _ | ⟨_, _, _, _ | _, _⟩ | ⟨_, _⟩ | ⟨o, tag⟩
  case unsupported =>
    show tag.isText "BlockStatement" = false
    cases tag with
    | str type =>
      refine beq_false_of_ne fun htype => ?_
      have hform := hs.2
      rw [htype] at hform
      exact absurd hform (by decide)
    | _ => rfl
  case blockStmt => cases hbraces
  all_goals rfl

theorem Block.exists_of_isLone {b : Block} (h : b.isLone = true) :
    ∃ s, b.body = [s] ∧ s.offset = b.offset ∧ s.isBraces = false := by
  obtain ⟨o, body⟩ := b
  rcases body with _ | ⟨s, _ | ⟨t, rest⟩⟩
  · cases h
  · obtain ⟨hoffset, hbraces⟩ : s.offset = o ∧ s.isBraces = false := by simpa [Block.isLone] using h
    exact ⟨s, rfl, hoffset, hbraces⟩
  · cases h

/-- A block is written between braces, or as its only statement. -/
theorem Block.encode_cases (f : Format) (address : List Step) (b : Block) :
    b.encode f address = braces b.offset (Stmt.encodeBody f address 0 b.body) ∨
      ∃ s, b.body = [s] ∧ s.offset = b.offset ∧ s.isBraces = false ∧
        b.encode f address = s.encode f (address ++ [.child "body", .item 0]) := by
  obtain ⟨o, body⟩ := b
  rw [Block.encode]
  by_cases hlone : (f.bare address && Block.isLone ⟨o, body⟩) = true
  · obtain ⟨s, hbody, hoffset, hbraces⟩ :=
      Block.exists_of_isLone (Bool.and_eq_true_iff.mp hlone).2
    refine Or.inr ⟨s, hbody, hoffset, hbraces, ?_⟩
    obtain rfl : body = [s] := hbody
    rw [Stmt.encodeBody, Stmt.encodeBody, Format.wrap, if_pos hlone]
  · refine Or.inl ?_
    show f.wrap address ⟨o, body⟩ (Stmt.encodeBody f address 0 body) =
      braces o (Stmt.encodeBody f address 0 body)
    unfold Format.wrap
    split
    next j hitems => rw [if_neg hlone, hitems]
    next => rfl

/-- The statements of a block lie no deeper than the block. -/
theorem Block.depth_le_encode {b : Block} {x : Json} (h : x ∈ Stmt.encodeBody f address 0 b.body) :
    x.depth ≤ (b.encode f address).depth := by
  rcases Block.encode_cases f address b with hencode | ⟨s, hbody, -, -, hencode⟩
  · rw [hencode]
    have hitem : x ∈ ((braces b.offset (Stmt.encodeBody f address 0 b.body)).field "body").elements :=
      h
    exact Nat.le_trans (Json.depth_le_of_mem_elements hitem) (Json.depth_field_le_self _ _)
  · rw [hbody, Stmt.encodeBody, Stmt.encodeBody] at h
    obtain rfl := List.mem_singleton.mp h
    exact Nat.le_of_eq (congrArg Json.depth hencode.symm)

/-- A block whose statements are read from their documents is read from its document, with braces
and without. -/
theorem Block.readsAs_encode {b : Block} (hb : ∀ s ∈ b.body, s.Regular)
    (hread : List.Forall₂ (fun x s => (Stmt.read depth x).result = .ok s)
      (Stmt.encodeBody f address 0 b.body) b.body) :
    b.ReadsAs depth (b.encode f address) := by
  obtain ⟨o, body⟩ := b
  rcases Block.encode_cases f address ⟨o, body⟩ with
    hencode | ⟨s, hbody, hoffset, hbraces, hencode⟩
  · rw [hencode]
    exact .braces rfl rfl (Or.inl ⟨_, rfl⟩) hread
  · obtain rfl : body = [s] := hbody
    obtain rfl : s.offset = o := hoffset
    have hs : s.Regular := hb s (List.mem_singleton_self s)
    rw [Stmt.encodeBody, Stmt.encodeBody, List.forall₂_cons] at hread
    rw [hencode]
    exact .lone (Stmt.type_encode hs hbraces) (s.start_encode f _) hread.1

theorem Declarator.readsAs_encode {d : Declarator}
    (h : ∀ x ∈ d.init.toList.flatMap (·.subexpressions), x.Regular)
    (hdepth : (d.encode f).depth ≤ depth) : d.ReadsAs depth (d.encode f) where
  start_eq := rfl
  name_eq := (plainName_nameNode d.name).symm
  init_eq := by
    have hinit := Json.depth_field_le_self (d.encode f) "init"
    exact Expr.readOptional_encode h (Nat.le_trans hinit hdepth)

theorem Stmt.isNode_encode (f : Format) (address : List Step) (s : Stmt) :
    isNode (s.encode f address) = true := by
  rcases s with _ | _ | _ | ⟨_, _, _, _ | _, _⟩ | _ | _ | _ | ⟨_, _, _, _ | _, _⟩ | ⟨_, _⟩ | _ <;> rfl

/-- The statements of a block, if they lie no deeper than that, are read from their documents. -/
def Block.BodyReads (f : Format) (depth : Nat) (b : Block) : Prop :=
  ∀ address, (∀ x ∈ Stmt.encodeBody f address 0 b.body, x.depth ≤ depth) →
    List.Forall₂ (fun x s => (Stmt.read depth x).result = .ok s)
      (Stmt.encodeBody f address 0 b.body) b.body

/-- A statement is read from its document if the statements in its blocks are. -/
theorem Stmt.readsAs_encode {s : Stmt} (hs : s.Normal)
    (hdepth : (s.encode f address).depth ≤ depth + 1)
    (hbody : ∀ b ∈ s.blocks, b.BodyReads f depth)
    (hregular : ∀ b ∈ s.blocks, ∀ r ∈ b.body, r.Regular) :
    s.ReadsAs depth (s.encode f address) := by
  obtain ⟨hown, hexpr⟩ := hs
  have hfield := Json.depth_field_le hdepth
  have hblock : ∀ b ∈ s.blocks, ∀ address, (b.encode f address).depth ≤ depth →
      b.ReadsAs depth (b.encode f address) := by
    intro b hb address hdepth
    refine Block.readsAs_encode (hregular b hb) (hbody b hb address fun x hx => ?_)
    exact Nat.le_trans (Block.depth_le_encode hx) hdepth
  rcases s with ⟨o, e⟩ | ⟨o, ds⟩ | ⟨o, test, body⟩ | ⟨o, test, consequent, alternate, folded⟩ |
    ⟨o, argument⟩ | ⟨o, label⟩ | ⟨o, label⟩ | ⟨o, block, handler, finalizer, param⟩ | ⟨o, body⟩ |
    ⟨o, tag⟩
  case exprStmt =>
    refine ⟨.expression, o, ⟨rfl, rfl, rfl⟩, .expression ?_⟩
    exact Expr.read_encode f e hexpr (hfield "expression")
  case declStmt =>
    refine ⟨.declaration, o, ⟨rfl, rfl, rfl⟩, .declaration (Or.inl ⟨_, rfl⟩) ?_⟩
    show List.Forall₂ _ (ds.map (Declarator.encode f)) ds
    rw [List.forall₂_map_left_iff, List.forall₂_same]
    intro d hd
    refine Declarator.readsAs_encode (fun x hx => hexpr x (List.mem_flatMap.mpr ⟨d, hd, hx⟩)) ?_
    have hitem : d.encode f ∈ (Json.arr (ds.map (Declarator.encode f))).elements :=
      List.mem_map.mpr ⟨d, hd, rfl⟩
    exact Nat.le_trans (Json.depth_le_of_mem_elements hitem) (hfield "declarations")
  case whileStmt =>
    refine ⟨.whileLoop, o, ⟨rfl, rfl, rfl⟩, .whileLoop ?_ ?_⟩
    · exact Expr.read_encode f test hexpr (hfield "test")
    · exact hblock body (by simp [Stmt.blocks]) _ (hfield "body")
  case ifStmt =>
    obtain rfl : folded = false := hown
    cases alternate with
    | none =>
      refine ⟨.conditional, o, ⟨rfl, rfl, rfl⟩, .conditional ?_ ?_ .none⟩
      · exact Expr.read_encode f test hexpr (hfield "test")
      · exact hblock consequent (by simp [Stmt.blocks]) _ (hfield "consequent")
    | some alternate =>
      refine ⟨.conditional, o, ⟨rfl, rfl, rfl⟩, .conditional ?_ ?_ (.some ?_)⟩
      · exact Expr.read_encode f test hexpr (hfield "test")
      · exact hblock consequent (by simp [Stmt.blocks]) _ (hfield "consequent")
      · exact hblock alternate (by simp [Stmt.blocks]) _ (hfield "alternate")
  case throwStmt =>
    refine ⟨.throwing, o, ⟨rfl, rfl, rfl⟩, .throwing ?_⟩
    exact Expr.readOptional_encode hexpr (hfield "argument")
  case breakStmt => exact ⟨.breaking, o, ⟨rfl, rfl, rfl⟩, .breaking (memberOf_nameNode label)⟩
  case continueStmt =>
    exact ⟨.continuing, o, ⟨rfl, rfl, rfl⟩, .continuing (memberOf_nameNode label)⟩
  case tryStmt =>
    -- the body of the clause lies one level deeper than the clause
    have hclause := fun key => Nat.le_trans (Json.depth_field_le_self _ key) (hfield "handler")
    cases finalizer with
    | none =>
      refine ⟨.guarded, o, ⟨rfl, rfl, rfl⟩, .guarded ?_ ?_ .none (paramName_catchNode ..)⟩
      · exact hblock block (by simp [Stmt.blocks]) _ (hfield "block")
      · exact hblock handler (by simp [Stmt.blocks]) _ (hclause "body")
    | some finalizer =>
      refine ⟨.guarded, o, ⟨rfl, rfl, rfl⟩, .guarded ?_ ?_ (.some ?_) (paramName_catchNode ..)⟩
      · exact hblock block (by simp [Stmt.blocks]) _ (hfield "block")
      · exact hblock handler (by simp [Stmt.blocks]) _ (hclause "body")
      · exact hblock finalizer (by simp [Stmt.blocks]) _ (hfield "finalizer")
  case blockStmt =>
    refine ⟨.block, o, ⟨rfl, rfl, rfl⟩, .block (Or.inl ⟨_, rfl⟩) ?_⟩
    refine hbody ⟨o, body⟩ (by simp [Stmt.blocks]) address fun x hx => ?_
    have hitem : x ∈ (Json.arr (Stmt.encodeBody f address 0 body)).elements := hx
    exact Nat.le_trans (Json.depth_le_of_mem_elements hitem) (hfield "body")
  case unsupported =>
    refine ⟨.unknown, o, ⟨rfl, hown.2, rfl⟩, .unknown ?_⟩
    show isPlain tag = true
    cases tag with
    | str type => rfl
    | _ => cases hown.1

theorem Stmt.forall₂_encodeBody {R : Json → Stmt → Prop} {ss : List Stmt} {i : Nat}
    (h : ∀ s ∈ ss, ∀ place, s.encode f place ∈ Stmt.encodeBody f address i ss →
      R (s.encode f place) s) : List.Forall₂ R (Stmt.encodeBody f address i ss) ss := by
  induction ss generalizing i with
  | nil =>
    rw [Stmt.encodeBody]
    exact .nil
  | cons s rest ih =>
    rw [Stmt.encodeBody] at h ⊢
    refine .cons (h s List.mem_cons_self _ List.mem_cons_self) (ih fun r hr place hplace => ?_)
    exact h r (List.mem_cons_of_mem _ hr) place (List.mem_cons_of_mem _ hplace)

/-- The statements of a block are read from their documents. -/
theorem Block.bodyReads (f : Format) (b : Block) (hb : ∀ s ∈ b.statements, s.Normal)
    (depth : Nat) : b.BodyReads f depth := by
  revert depth hb
  -- the address and the depth are those of the place where a statement stands
  refine Block.of_body
    (P := fun s => s.Normal → (∀ r ∈ s.nested, r.Normal) → ∀ depth address,
      (s.encode f address).depth ≤ depth → (Stmt.read depth (s.encode f address)).result = .ok s)
    (Q := fun b => (∀ s ∈ b.statements, s.Normal) → ∀ depth, b.BodyReads f depth) ?_ ?_ b
  · intro s ih hs hnested depth address hdepth
    obtain ⟨depth, rfl⟩ := exists_succ_of_node (s.isNode_encode f address) hdepth
    have hnormal : ∀ b ∈ s.blocks, ∀ r ∈ b.statements, r.Normal :=
      fun b hb r hr => hnested r (Stmt.mem_nested.mpr ⟨b, hb, hr⟩)
    rw [Stmt.read_eq_ok_iff]
    refine Stmt.readsAs_encode hs hdepth (fun b hb => ih b hb (hnormal b hb) depth) ?_
    intro b hb r hr
    obtain ⟨o, body⟩ := b
    exact (hnormal _ hb r (Stmt.mem_flatten.mpr ⟨r, hr, Or.inl rfl⟩)).1
  · intro b ih hb depth address hdepth
    obtain ⟨o, body⟩ := b
    refine Stmt.forall₂_encodeBody fun s hs place hplace => ?_
    refine ih s hs (hb s (Stmt.mem_flatten.mpr ⟨s, hs, Or.inl rfl⟩)) ?_ depth place
      (hdepth _ hplace)
    exact fun r hr => hb r (Stmt.mem_flatten.mpr ⟨s, hs, Or.inr hr⟩)

end Statements

/-- **The reader undoes the encoding.**  A program that is as the reader makes it is read from its
document, whatever member holds the operands of an operation, and whichever of the bodies that can
do without braces are written without them. -/
theorem Program.ofEstree_encode (f : Format) (p : Program) (hp : p.Normal) :
    Program.ofEstree (p.encode f) = .ok p := by
  rw [Program.ofEstree_eq_ok_iff]
  refine ⟨rfl, rfl, Or.inl ⟨_, rfl⟩, ?_⟩
  refine Block.bodyReads f p.block hp _ [] fun x hx => ?_
  have hitem : x ∈ (Json.arr (Stmt.encodeBody f [] 0 p.body)).elements := hx
  exact Nat.le_trans (Json.depth_le_of_mem_elements hitem)
    (Json.depth_field_le_self (p.encode f) "body")

/-- Operands are members of that name, and there are no braces where there need not be any. -/
def Estree.Format.terse : Format where
  key := fun _ => "operands"
  bare := fun _ => true
  key_free := fun _ => by decide

/-- `if (a + 1) throw b; else { throw c; }` -/
def chosen : Program where
  offset := 0
  body := [.ifStmt 0
    (.operation 4 (.str "BinaryExpression") (.str "+")
      [.identifier 4 "a", .literal 8 (.int 1) (.str "1")])
    ⟨11, [.throwStmt 11 (some (.identifier 17 "b"))]⟩
    (some ⟨25, [.throwStmt 27 (some (.identifier 33 "c"))]⟩) false]

/-- One branch has braces in the document and the other has none, and the program is read from
it. -/
theorem chosen_read_back :
    chosen.Normal ∧
    chosen.encode .terse = .obj [("type", .str "Program"), ("start", .int 0), ("body", .arr
      [.obj [("type", .str "IfStatement"), ("start", .int 0),
        ("test", .obj [("type", .str "BinaryExpression"), ("start", .int 4),
          ("operator", .str "+"), ("operands", .arr
            [.obj [("type", .str "Identifier"), ("start", .int 4), ("name", .str "a")],
              .obj [("type", .str "Literal"), ("start", .int 8), ("value", .int 1),
                ("raw", .str "1")]])]),
        ("consequent", .obj [("type", .str "ThrowStatement"), ("start", .int 11), ("argument",
          .obj [("type", .str "Identifier"), ("start", .int 17), ("name", .str "b")])]),
        ("alternate", .obj [("type", .str "BlockStatement"), ("start", .int 25), ("body", .arr
          [.obj [("type", .str "ThrowStatement"), ("start", .int 27), ("argument",
            .obj [("type", .str "Identifier"), ("start", .int 33), ("name", .str "c")])]])])]])] ∧
    Program.ofEstree (chosen.encode .terse) = .ok chosen :=
  ⟨by decide, rfl, Program.ofEstree_encode .terse chosen (by decide)⟩

end Liveness
