/-
Liveness/Proofs/KeyOrder.lean

Documents whose objects have their members in another order.  An object is a list of
members here, and the operands of an operation are found by going through it; they are
sorted by their starts afterwards, so where no two of them start at one place their
order is that of the text and not that of the members.

A document that is read as a program is then read as the same program after the members
of any objects in it have been put in another order (`Program.ofEstree_reordered`).
What a program keeps as the document has it, such as the value of a literal, may hold
objects itself, and is the same up to such an order (`Expr.Agrees`, `Stmt.Agrees`).
-/
import Mathlib.Data.List.Forall2
import Mathlib.Data.List.Nodup
import Liveness.Proofs.ReadRules

namespace Liveness

open Estree

/-! ### Members in another order -/

mutual
/-- The second value is the first with the members of objects, at any depth, in another order.  The
keys of an object whose members are moved are distinct. -/
inductive Json.Reordered : Json → Json → Prop
  | same (j : Json) : Reordered j j
  | arr {xs ys : List Json} : Json.ItemsReordered xs ys → Reordered (.arr xs) (.arr ys)
  | obj {ms ns ks : List (String × Json)} : (ms.map (·.1)).Nodup → Json.MembersReordered ms ns →
      ns.Perm ks → Reordered (.obj ms) (.obj ks)
/-- The items of the second list are those of the first with members in another order. -/
inductive Json.ItemsReordered : List Json → List Json → Prop
  | nil : ItemsReordered [] []
  | cons {x y : Json} {xs ys : List Json} : Json.Reordered x y → ItemsReordered xs ys →
      ItemsReordered (x :: xs) (y :: ys)
/-- The values of the second list of members are those of the first with members in another
order. -/
inductive Json.MembersReordered : List (String × Json) → List (String × Json) → Prop
  | nil : MembersReordered [] []
  | cons {key : String} {v w : Json} {ms ns : List (String × Json)} : Json.Reordered v w →
      MembersReordered ms ns → MembersReordered ((key, v) :: ms) ((key, w) :: ns)
end

namespace Json

section Reordered

variable {j j' : Json} {xs ys : List Json} {ms ns ks : List (String × Json)} {key : String}

theorem ItemsReordered.forall₂ : {xs ys : List Json} → ItemsReordered xs ys →
    List.Forall₂ Reordered xs ys
  | _, _, .nil => .nil
  | _, _, .cons h hs => .cons h hs.forall₂

theorem MembersReordered.keys : {ms ns : List (String × Json)} → MembersReordered ms ns →
    ms.map (·.1) = ns.map (·.1)
  | _, _, .nil => rfl
  | _, _, .cons _ hs => congrArg (_ :: ·) hs.keys

theorem depthMembers_perm (h : ns.Perm ks) : depthMembers ns = depthMembers ks := by
  induction h with
  | nil => rfl
  | cons m _ ih => rw [depthMembers, depthMembers, ih]
  | swap m n rest =>
    simp only [depthMembers]
    omega
  | trans _ _ ih₁ ih₂ => exact ih₁.trans ih₂

mutual
/-- Another order of members does not change the depth. -/
theorem Reordered.depth : {j j' : Json} → j.Reordered j' → j.depth = j'.depth
  | _, _, .same _ => rfl
  | _, _, .arr h => congrArg (· + 1) h.depth
  | _, _, .obj _ h hperm => congrArg (· + 1) (h.depth.trans (depthMembers_perm hperm))
theorem ItemsReordered.depth : {xs ys : List Json} → ItemsReordered xs ys →
    depthItems xs = depthItems ys
  | _, _, .nil => rfl
  | _, _, .cons h hs => congrArg₂ max h.depth hs.depth
theorem MembersReordered.depth : {ms ns : List (String × Json)} → MembersReordered ms ns →
    depthMembers ms = depthMembers ns
  | _, _, .nil => rfl
  | _, _, .cons h hs => congrArg₂ max h.depth hs.depth
end

theorem lookup_cons_rel {k : String} {v w : Json} (h : v.Reordered w)
    (hrest : Option.Rel Reordered (lookup key ms) (lookup key ns)) :
    Option.Rel Reordered (lookup key ((k, v) :: ms)) (lookup key ((k, w) :: ns)) := by
  by_cases hk : k = key
  · rw [lookup, lookup, if_pos hk, if_pos hk]
    exact .some h
  · rw [lookup, lookup, if_neg hk, if_neg hk]
    exact hrest

theorem MembersReordered.lookup (key : String) : {ms ns : List (String × Json)} →
    MembersReordered ms ns → Option.Rel Reordered (lookup key ms) (lookup key ns)
  | _, _, .nil => .none
  | _, _, .cons h hs => lookup_cons_rel h (hs.lookup key)

/-- Where keys are distinct, members are found in any order. -/
theorem lookup_perm (h : ns.Perm ks) (hkeys : (ns.map (·.1)).Nodup) (key : String) :
    lookup key ns = lookup key ks := by
  induction h with
  | nil => rfl
  | cons m _ ih =>
    have hrest := ih (List.nodup_cons.mp hkeys).2
    rw [lookup, lookup, hrest]
  | swap m n rest =>
    simp only [List.map_cons, List.nodup_cons, List.mem_cons, not_or] at hkeys
    by_cases hm : m.1 = key
    · have hn : n.1 ≠ key := fun hn => hkeys.1.1 (hn.trans hm.symm)
      simp [lookup, hm, hn]
    · simp [lookup, hm]
  | trans h₁ _ ih₁ ih₂ =>
    have hmiddle := (h₁.map (·.1)).nodup_iff.mp hkeys
    exact (ih₁ hkeys).trans (ih₂ hmiddle)

namespace Reordered

theorem get? (h : j.Reordered j') (key : String) :
    Option.Rel Reordered (j.get? key) (j'.get? key) := by
  cases h with
  | same =>
    rcases j.get? key with - | v
    · exact .none
    · exact .some (.same v)
  | arr => exact .none
  | @obj ms ns ks hkeys h hperm =>
    rw [h.keys] at hkeys
    show Option.Rel Reordered (lookup key ms) (lookup key ks)
    rw [← lookup_perm hperm hkeys]
    exact h.lookup key

theorem getD (h : j.Reordered j') (key : String) (default : Json) :
    ((j.get? key).getD default).Reordered ((j'.get? key).getD default) := by
  have hget := h.get? key
  generalize j.get? key = v, j'.get? key = v' at hget
  cases hget with
  | none => exact .same default
  | some h => exact h

theorem field (h : j.Reordered j') (key : String) : (j.field key).Reordered (j'.field key) :=
  h.getD key .null

theorem has (h : j.Reordered j') (key : String) : j.has key = j'.has key := by
  have hget := h.get? key
  rw [Json.has, Json.has]
  generalize j.get? key = v, j'.get? key = v' at hget
  cases hget with
  | none => rfl
  | some => rfl

theorem truthy (h : j.Reordered j') : j.truthy = j'.truthy := by
  cases h with
  | same => rfl
  | arr h =>
    cases h with
    | nil => rfl
    | cons => rfl
  | @obj ms ns ks _ h hperm =>
    have hlength : ms.length = ks.length := by
      have hkeys := congrArg List.length h.keys
      rw [List.length_map, List.length_map] at hkeys
      exact hkeys.trans hperm.length_eq
    rcases ms with _ | ⟨m, ms⟩ <;> rcases ks with _ | ⟨k, ks⟩
    · rfl
    · cases hlength
    · cases hlength
    · rfl

theorem isText (h : j.Reordered j') (text : String) : j.isText text = j'.isText text := by
  cases h <;> rfl

theorem exprForm (h : j.Reordered j') : ExprForm.ofType j = ExprForm.ofType j' := by
  cases h <;> rfl

theorem stmtForm (h : j.Reordered j') : StmtForm.ofType j = StmtForm.ofType j' := by
  cases h <;> rfl

theorem isPlain (h : j.Reordered j') : isPlain j = isPlain j' := by
  cases h <;> rfl

theorem elements (h : j.Reordered j') : List.Forall₂ Reordered j.elements j'.elements := by
  cases h with
  | same => exact List.forall₂_same.mpr fun x _ => .same x
  | arr h => exact h.forall₂
  | obj => exact .nil

theorem isList (h : j.Reordered j') (hlist : j.IsList) : j'.IsList := by
  rcases hlist with ⟨items, rfl⟩ | habsent
  · cases h with
    | same => exact Or.inl ⟨_, rfl⟩
    | arr => exact Or.inl ⟨_, rfl⟩
  · exact Or.inr (h.truthy ▸ habsent)

/-- A whole number, a text or `null` has no members to move. -/
theorem int {o : Int} (h : j.Reordered j') (hj : j = .int o) : j' = .int o := by
  subst hj
  cases h
  rfl

theorem str {s : String} (h : j.Reordered j') (hj : j = .str s) : j' = .str s := by
  subst hj
  cases h
  rfl

end Reordered

end Reordered

end Json

/-! ### Operands in another order -/

section Sorting

open Sorting

variable {α : Type} {R : α → α → Prop} {key : α → Int} {x y : α} {xs ys : List α}

/-- Related items with equal keys are put in related places. -/
theorem forall₂_insertBy (hkey : ∀ {x y}, R x y → key x = key y) (h : R x y)
    (hs : List.Forall₂ R xs ys) :
    List.Forall₂ R (insertBy (fun a b => key a < key b) x xs)
      (insertBy (fun a b => key a < key b) y ys) := by
  induction hs with
  | nil => exact .cons h .nil
  | cons h' hs ih =>
    rw [insertBy, insertBy, hkey h, hkey h']
    split
    · exact .cons h' ih
    · exact .cons h (.cons h' hs)

theorem forall₂_byKey (hkey : ∀ {x y}, R x y → key x = key y) (hs : List.Forall₂ R xs ys) :
    List.Forall₂ R (byKey key xs) (byKey key ys) := by
  induction hs with
  | nil => exact .nil
  | cons h _ ih => exact forall₂_insertBy hkey h ih

/-- Items with distinct keys have one order. -/
theorem byKey_eq_of_perm (h : xs.Perm ys) (hkeys : (xs.map key).Nodup) :
    byKey key xs = byKey key ys := by
  have hxs : (byKey key xs).Perm xs := stableBy_perm _ _
  have hys : (byKey key ys).Perm ys := stableBy_perm _ _
  refine List.Perm.eq_of_pairwise (fun a b ha hb hab hba => ?_) (pairwise_byKey key xs)
    (pairwise_byKey key ys) (hxs.trans (h.trans hys.symm))
  refine List.inj_on_of_nodup_map hkeys (hxs.mem_iff.mp ha) ?_ (Int.le_antisymm hab hba)
  exact h.mem_iff.mpr (hys.mem_iff.mp hb)

end Sorting

section Operands

variable {j j' : Json}

theorem nodesIn_reordered (h : j.Reordered j') :
    List.Forall₂ Json.Reordered (nodesIn j) (nodesIn j') := by
  have hnode : ∀ {x y : Json}, x.Reordered y → isNode x = isNode y := fun h => h.has "type"
  cases h with
  | same => exact List.forall₂_same.mpr fun x _ => .same x
  | arr h =>
    refine List.rel_filter (fun x y hxy => ?_) h.forall₂
    show isNode x = true ↔ isNode y = true
    rw [hnode hxy]
  | @obj ms ns ks hkeys h hperm =>
    have hobj : (Json.obj ms).Reordered (.obj ks) := .obj hkeys h hperm
    unfold nodesIn
    dsimp only
    rw [hnode hobj]
    split
    · exact .cons hobj .nil
    · exact .nil

theorem childNodes_membersReordered : {ms ns : List (String × Json)} →
    Json.MembersReordered ms ns →
    List.Forall₂ Json.Reordered (childNodes (.obj ms)) (childNodes (.obj ns))
  | _, _, .nil => .nil
  | _, _, @Json.MembersReordered.cons key v w ms ns h hs => by
    have hrest := childNodes_membersReordered hs
    rw [childNodes] at hrest ⊢
    refine List.rel_append ?_ hrest
    dsimp only
    split
    · exact .nil
    · exact nodesIn_reordered h

/-- The nodes among the members are the same ones in another order. -/
theorem childNodes_reordered (h : j.Reordered j') :
    ∃ nodes, List.Forall₂ Json.Reordered (childNodes j) nodes ∧ nodes.Perm (childNodes j') := by
  cases h with
  | same => exact ⟨_, List.forall₂_same.mpr fun x _ => .same x, .refl _⟩
  | arr => exact ⟨[], .nil, .nil⟩
  | @obj ms ns ks _ h hperm =>
    exact ⟨_, childNodes_membersReordered h, List.Perm.flatMap_right _ hperm⟩

theorem place?_reordered (h : j.Reordered j') : place? j = place? j' := by
  have hstart := h.getD "start" (.int 0)
  unfold place? sortKey
  generalize (j.get? "start").getD (.int 0) = v, (j'.get? "start").getD (.int 0) = v' at hstart
  cases hstart <;> rfl

/-- Operands with distinct starts are read in the same order. -/
theorem inOrder_reordered (h : j.Reordered j')
    (hstarts : ∀ x ∈ childNodes j, ∃ o, x.field "start" = .int o)
    (hdistinct : (childNodes j).Pairwise fun x y => x.field "start" ≠ y.field "start") :
    List.Forall₂ Json.Reordered (inOrder (childNodes j)) (inOrder (childNodes j')) := by
  have hkey : ∀ {x y : Json}, x.Reordered y → (place? x).getD 0 = (place? y).getD 0 :=
    fun h => by rw [place?_reordered h]
  -- first the nodes change inside, with the keys they are sorted by unchanged, then they move
  obtain ⟨nodes, hnodes, hperm⟩ := childNodes_reordered h
  have hkeys : ((childNodes j).map fun x => (place? x).getD 0).Nodup := by
    refine List.pairwise_map.mpr (hdistinct.imp_of_mem fun {x y} hx hy hne heq => hne ?_)
    obtain ⟨o, ho⟩ := hstarts x hx
    obtain ⟨o', ho'⟩ := hstarts y hy
    rw [place?_of_start ho, place?_of_start ho'] at heq
    rw [ho, ho']
    exact congrArg Json.int heq
  have hsame : (childNodes j).map (fun x => (place? x).getD 0) =
      nodes.map fun x => (place? x).getD 0 := by
    rw [← List.forall₂_eq_eq_eq, List.forall₂_map_left_iff, List.forall₂_map_right_iff]
    exact hnodes.imp fun x y hxy => hkey hxy
  rw [hsame] at hkeys
  unfold inOrder
  rw [← byKey_eq_of_perm hperm hkeys]
  exact forall₂_byKey hkey hnodes

end Operands

/-! ### Nodes that are read -/

namespace Estree

/-- The nodes that are read as expressions directly inside an expression. -/
def exprParts (j : Json) : List Json :=
  match ExprForm.ofType (j.field "type") with
  | .identifier | .literal => []
  | .member => [j.field "object", j.field "property"]
  | .call => j.field "callee" :: (j.field "arguments").elements
  | .assignment => [j.field "left", j.field "right"]
  | .update => [j.field "argument"]
  | .parenthesized => [j.field "expression"]
  | .operation => childNodes j

/-- The nodes that are read as expressions directly inside a statement. -/
def stmtExprs (j : Json) : List Json :=
  match StmtForm.ofType (j.field "type") with
  | .expression => [j.field "expression"]
  | .declaration => (j.field "declarations").elements.map (·.field "init")
  | .whileLoop | .conditional => [j.field "test"]
  | .throwing => [j.field "argument"]
  | _ => []

/-- The nodes that are read as the statements of a block. -/
def blockParts (j : Json) : List Json :=
  if (j.field "type").isText "BlockStatement" then (j.field "body").elements else [j]

/-- The nodes that are read as statements directly inside a statement. -/
def stmtParts (j : Json) : List Json :=
  match StmtForm.ofType (j.field "type") with
  | .whileLoop => blockParts (j.field "body")
  | .conditional => blockParts (j.field "consequent") ++ blockParts (j.field "alternate")
  | .guarded =>
    blockParts (j.field "block") ++ (blockParts ((j.field "handler").field "body") ++
      blockParts (j.field "finalizer"))
  | .block => (j.field "body").elements
  | _ => []

/-- The first node is read as an expression where the second one is. -/
inductive ExprIn (node : Json) : Json → Prop
  | self : ExprIn node node
  | part {x j : Json} : x ∈ exprParts j → ExprIn node x → ExprIn node j

/-- The first node is read as an expression where the second one is read as a statement. -/
inductive StmtIn (node : Json) : Json → Prop
  | expr {x j : Json} : x ∈ stmtExprs j → ExprIn node x → StmtIn node j
  | part {x j : Json} : x ∈ stmtParts j → StmtIn node x → StmtIn node j

/-- If a node is an operation, no two of its operands start at one place. -/
def Spread (node : Json) : Prop :=
  ExprForm.ofType (node.field "type") = .operation →
    (childNodes node).Pairwise fun x y => x.field "start" ≠ y.field "start"

/-- No two operands start at one place, in any operation that is read when a document is read as a
program. -/
def AllSpread (tree : Json) : Prop :=
  ∀ x ∈ (tree.field "body").elements, ∀ node, StmtIn node x → Spread node

end Estree

/-! ### Programs up to the order of members -/

/-- The second expression is the first with what it keeps of the document, such as the value of a
literal, up to the order of members. -/
inductive Expr.Agrees : Expr → Expr → Prop
  | identifier (o : Int) (name : String) : Agrees (.identifier o name) (.identifier o name)
  | literal {o : Int} {value value' raw raw' : Json} : value.Reordered value' →
      raw.Reordered raw' → Agrees (.literal o value raw) (.literal o value' raw')
  | member {o : Int} {object object' property property' : Expr} {computed : Bool} :
      Agrees object object' → Agrees property property' →
      Agrees (.member o object property computed) (.member o object' property' computed)
  | call {o : Int} {callee callee' : Expr} {arguments arguments' : List (Option Expr)} :
      Agrees callee callee' → List.Forall₂ (Option.Rel Agrees) arguments arguments' →
      Agrees (.call o callee arguments) (.call o callee' arguments')
  | assignment {o : Int} {operator operator' : Json} {target target' value value' : Expr} :
      operator.Reordered operator' → Agrees target target' → Agrees value value' →
      Agrees (.assignment o operator target value) (.assignment o operator' target' value')
  | update {o : Int} {operator operator' : Json} {target target' : Expr} :
      operator.Reordered operator' → Agrees target target' →
      Agrees (.update o operator target) (.update o operator' target')
  | operation {o : Int} {tag tag' operator operator' : Json} {operands operands' : List Expr} :
      tag.Reordered tag' → operator.Reordered operator' →
      List.Forall₂ Agrees operands operands' →
      Agrees (.operation o tag operator operands) (.operation o tag' operator' operands')

/-- The same for one variable of a declaration. -/
structure Declarator.Agrees (d d' : Declarator) : Prop where
  offset : d.offset = d'.offset
  name : d.name.Reordered d'.name
  init : Option.Rel Expr.Agrees d.init d'.init

mutual
/-- The same for statements. -/
inductive Stmt.Agrees : Stmt → Stmt → Prop
  | exprStmt {o : Int} {e e' : Expr} : e.Agrees e' → Stmt.Agrees (.exprStmt o e) (.exprStmt o e')
  | declStmt {o : Int} {ds ds' : List Declarator} : List.Forall₂ Declarator.Agrees ds ds' →
      Stmt.Agrees (.declStmt o ds) (.declStmt o ds')
  | whileStmt {o : Int} {test test' : Expr} {body body' : Block} : test.Agrees test' →
      Block.Agrees body body' → Stmt.Agrees (.whileStmt o test body) (.whileStmt o test' body')
  | ifStmt {o : Int} {test test' : Expr} {consequent consequent' : Block}
      {alternate alternate' : Option Block} {folded : Bool} : test.Agrees test' →
      Block.Agrees consequent consequent' → Option.Rel Block.Agrees alternate alternate' →
      Stmt.Agrees (.ifStmt o test consequent alternate folded)
        (.ifStmt o test' consequent' alternate' folded)
  | throwStmt {o : Int} {argument argument' : Option Expr} :
      Option.Rel Expr.Agrees argument argument' →
      Stmt.Agrees (.throwStmt o argument) (.throwStmt o argument')
  | breakStmt {o : Int} {label label' : Json} : label.Reordered label' →
      Stmt.Agrees (.breakStmt o label) (.breakStmt o label')
  | continueStmt {o : Int} {label label' : Json} : label.Reordered label' →
      Stmt.Agrees (.continueStmt o label) (.continueStmt o label')
  | tryStmt {o : Int} {block block' handler handler' : Block}
      {finalizer finalizer' : Option Block} {param param' : Json} : Block.Agrees block block' →
      Block.Agrees handler handler' → Option.Rel Block.Agrees finalizer finalizer' →
      param.Reordered param' →
      Stmt.Agrees (.tryStmt o block handler finalizer param)
        (.tryStmt o block' handler' finalizer' param')
  | blockStmt {b b' : Block} : Block.Agrees b b' → Stmt.Agrees (.blockStmt b) (.blockStmt b')
  | unsupported {o : Int} {tag tag' : Json} : tag.Reordered tag' →
      Stmt.Agrees (.unsupported o tag) (.unsupported o tag')
/-- The same for blocks. -/
inductive Block.Agrees : Block → Block → Prop
  | mk {o : Int} {body body' : List Stmt} : List.Forall₂ Stmt.Agrees body body' →
      Block.Agrees ⟨o, body⟩ ⟨o, body'⟩
end

/-- The second program is the first up to the order of members in what it keeps of the
document. -/
structure Program.Agrees (p p' : Program) : Prop where
  offset : p.offset = p'.offset
  body : List.Forall₂ Stmt.Agrees p.body p'.body

/-! ### Reading in another order -/

section Reading

variable {α β : Type} {A : α → α → Prop} {S : Json → α → Prop} {j j' : Json}

/-- Items that are read one by one are read alike. -/
theorem forall₂_read {xs xs' : List Json} {as : List α} (h : List.Forall₂ Json.Reordered xs xs')
    (hread : List.Forall₂ S xs as)
    (hstep : ∀ x ∈ xs, ∀ x' a, x.Reordered x' → S x a → ∃ a', S x' a' ∧ A a a') :
    ∃ as', List.Forall₂ S xs' as' ∧ List.Forall₂ A as as' := by
  induction h generalizing as with
  | nil =>
    cases hread
    exact ⟨[], .nil, .nil⟩
  | cons hx _ ih =>
    cases hread with
    | cons ha has =>
      obtain ⟨a', ha', hagree⟩ := hstep _ List.mem_cons_self _ _ hx ha
      obtain ⟨as', has', hagrees⟩ :=
        ih has fun x hx => hstep x (List.mem_cons_of_mem _ hx)
      exact ⟨a' :: as', .cons ha' has', .cons hagree hagrees⟩

theorem optional_read {a : Option α} (h : j.Reordered j') (hread : Optional S j a)
    (hstep : ∀ a, S j a → ∃ a', S j' a' ∧ A a a') :
    ∃ a', Optional S j' a' ∧ Option.Rel A a a' := by
  cases hread with
  | none =>
    cases h
    exact ⟨none, .none, .none⟩
  | some ha =>
    obtain ⟨a', ha', hagree⟩ := hstep _ ha
    exact ⟨some a', .some ha', .some hagree⟩

theorem Estree.NodeAt.reordered {F : Type} {ofType : Json → F} {form : F} {o : Int}
    (hform : ∀ {a b : Json}, a.Reordered b → ofType a = ofType b) (h : j.Reordered j')
    (hnode : NodeAt ofType form o j) : NodeAt ofType form o j' where
  has_type := (h.has "type").symm.trans hnode.has_type
  form_eq := (hform (h.field "type")).symm.trans hnode.form_eq
  start_eq := (h.field "start").int hnode.start_eq

theorem literalValue_reordered (h : j.Reordered j') :
    (literalValue j).Reordered (literalValue j') := by
  have hraw := h.field "raw"
  rw [literalValue, literalValue, h.has "regex"]
  split
  · dsimp only
    rw [hraw.truthy]
    split
    · exact hraw
    · exact .same _
  · exact h.field "value"

theorem plainName_reordered (h : j.Reordered j') : (plainName j).Reordered (plainName j') := by
  rw [plainName, plainName, (h.field "type").isText]
  split
  · exact h.field "name"
  · exact .same _

theorem memberOf_reordered {key : String} {v : Json} (h : j.Reordered j')
    (hread : memberOf j key = .ok v) : ∃ v', memberOf j' key = .ok v' ∧ v.Reordered v' := by
  unfold memberOf at hread ⊢
  rw [← h.truthy]
  split at hread
  next hpresent =>
    rw [if_pos hpresent]
    cases h with
    | same => exact ⟨v, hread, .same v⟩
    | arr => cases hread
    | obj hkeys h hperm =>
      cases hread
      exact ⟨_, rfl, (Json.Reordered.obj hkeys h hperm).field key⟩
  next habsent =>
    rw [if_neg habsent]
    exact ⟨v, hread, .same v⟩

theorem paramName_reordered {param : Json} (h : j.Reordered j') (hread : paramName j = .ok param) :
    ∃ param', paramName j' = .ok param' ∧ param.Reordered param' := by
  obtain ⟨type, htype, hread⟩ := Sorting.bind_eq_ok.mp hread
  obtain ⟨name, hname, hread⟩ := Sorting.bind_eq_ok.mp hread
  cases hread
  obtain ⟨type', htype', hreordered⟩ := memberOf_reordered (h.field "param") htype
  obtain ⟨name', hname', hname⟩ := memberOf_reordered (h.field "param") hname
  refine ⟨_, Sorting.bind_eq_ok.mpr ⟨type', htype', Sorting.bind_eq_ok.mpr ⟨name', hname', rfl⟩⟩, ?_⟩
  rw [hreordered.isText]
  split
  · exact hname
  · exact .same _

/-- The rules for expressions do not depend on the order of members. -/
theorem Expr.formReads_reordered {depth : Nat} {o : Int} {form : ExprForm} {e : Expr}
    (h : j.Reordered j') (hform : ExprForm.ofType (j.field "type") = form) (hspread : Spread j)
    (hpart : ∀ x ∈ exprParts j, ∀ x' e, x.Reordered x' → Expr.read depth x = .ok e →
      ∃ e', Expr.read depth x' = .ok e' ∧ e.Agrees e')
    (hread : Expr.FormReads depth j o form e) :
    ∃ e', Expr.FormReads depth j' o form e' ∧ e.Agrees e' := by
  cases hread with
  | identifier hname => exact ⟨_, .identifier ((h.field "name").str hname), .identifier _ _⟩
  | literal => exact ⟨_, .literal, .literal (literalValue_reordered h) (h.field "raw")⟩
  | member hobject hproperty =>
    obtain ⟨object', hobject', ho⟩ :=
      hpart _ (by simp [exprParts, hform]) _ _ (h.field "object") hobject
    obtain ⟨property', hproperty', hp⟩ :=
      hpart _ (by simp [exprParts, hform]) _ _ (h.field "property") hproperty
    rw [(h.field "computed").truthy]
    exact ⟨_, .member hobject' hproperty', .member ho hp⟩
  | call hcallee hlist harguments =>
    obtain ⟨callee', hcallee', hc⟩ :=
      hpart _ (by simp [exprParts, hform]) _ _ (h.field "callee") hcallee
    obtain ⟨arguments', harguments', ha⟩ := forall₂_read (A := Option.Rel Expr.Agrees)
      (h.field "arguments").elements harguments fun x hx x' argument hxx' hargument => by
        obtain ⟨argument', hread, hagree⟩ := optional_read hxx'
          (Expr.readOptional_eq_ok_iff.mp hargument) fun e he =>
            hpart x (by simp [exprParts, hform, hx]) x' e hxx' he
        exact ⟨argument', Expr.readOptional_eq_ok_iff.mpr hread, hagree⟩
    exact ⟨_, .call hcallee' ((h.field "arguments").isList hlist) harguments', .call hc ha⟩
  | assignment htarget hvalue =>
    obtain ⟨target', htarget', ht⟩ :=
      hpart _ (by simp [exprParts, hform]) _ _ (h.field "left") htarget
    obtain ⟨value', hvalue', hv⟩ :=
      hpart _ (by simp [exprParts, hform]) _ _ (h.field "right") hvalue
    exact ⟨_, .assignment htarget' hvalue', .assignment (h.getD "operator" _) ht hv⟩
  | update htarget =>
    obtain ⟨target', htarget', ht⟩ :=
      hpart _ (by simp [exprParts, hform]) _ _ (h.field "argument") htarget
    exact ⟨_, .update htarget', .update (h.getD "operator" _) ht⟩
  | parenthesized he =>
    obtain ⟨e', he', hagree⟩ :=
      hpart _ (by simp [exprParts, hform]) _ _ (h.field "expression") he
    exact ⟨e', .parenthesized he', hagree⟩
  | operation hoperands =>
    -- all operands are read, so they start at integers
    have hstarts : ∀ x ∈ childNodes j, ∃ o, x.field "start" = .int o := by
      intro x hx
      obtain ⟨e, he⟩ := exists_of_forall₂ hoperands (Sorting.mem_stableBy.mpr hx)
      exact Expr.start_of_read he
    obtain ⟨operands', hoperands', ho⟩ := forall₂_read (A := Expr.Agrees)
      (inOrder_reordered h hstarts (hspread hform)) hoperands fun x hx => by
        refine hpart x ?_
        rw [exprParts, hform]
        exact Sorting.mem_stableBy.mp hx
    exact ⟨_, .operation hoperands', .operation (h.field "type") (h.field "operator") ho⟩

/-- An expression is read alike from a document with members in another order. -/
theorem Expr.read_reordered (depth : Nat) {e : Expr} (h : j.Reordered j')
    (hspread : ∀ node, ExprIn node j → Spread node) (hread : Expr.read depth j = .ok e) :
    ∃ e', Expr.read depth j' = .ok e' ∧ e.Agrees e' := by
  induction depth generalizing j j' e with
  | zero =>
    rw [Expr.read] at hread
    cases hread
  | succ depth ih =>
    obtain ⟨form, o, hnode, hread⟩ := Expr.readsAs_of_read hread
    obtain ⟨e', hread', hagree⟩ := Expr.formReads_reordered h hnode.form_eq (hspread j .self)
      (fun x hx x' e hxx' => ih hxx' fun node hnode => hspread node (.part hx hnode)) hread
    have hnode' := hnode.reordered Json.Reordered.exprForm h
    exact ⟨e', Expr.read_of_readsAs ⟨form, o, hnode', hread'⟩, hagree⟩

theorem Expr.readOptional_reordered {depth : Nat} {e : Option Expr} (h : j.Reordered j')
    (hexpr : ∀ e, Expr.read depth j = .ok e → ∃ e', Expr.read depth j' = .ok e' ∧ e.Agrees e')
    (hread : Expr.readOptional depth j = .ok e) :
    ∃ e', Expr.readOptional depth j' = .ok e' ∧ Option.Rel Expr.Agrees e e' := by
  obtain ⟨e', hread, hagree⟩ := optional_read h (Expr.readOptional_eq_ok_iff.mp hread) hexpr
  exact ⟨e', Expr.readOptional_eq_ok_iff.mpr hread, hagree⟩

theorem Declarator.readsAs_reordered {depth : Nat} {d : Declarator} (h : j.Reordered j')
    (hexpr : ∀ e, Expr.read depth (j.field "init") = .ok e →
      ∃ e', Expr.read depth (j'.field "init") = .ok e' ∧ e.Agrees e')
    (hread : d.ReadsAs depth j) : ∃ d' : Declarator, d'.ReadsAs depth j' ∧ d.Agrees d' := by
  obtain ⟨init', hinit', hi⟩ := Expr.readOptional_reordered (h.field "init") hexpr hread.init_eq
  have hname := plainName_reordered (h.field "id")
  rw [← hread.name_eq] at hname
  exact ⟨⟨d.offset, plainName (j'.field "id"), init'⟩,
    ⟨(h.field "start").int hread.start_eq, rfl, hinit'⟩, ⟨rfl, hname, hi⟩⟩

/-- The rules for blocks do not depend on the order of members. -/
theorem Block.readsAs_reordered {depth : Nat} {b : Block} (h : j.Reordered j')
    (hpart : ∀ x ∈ blockParts j, ∀ x' s, x.Reordered x' → (Stmt.read depth x).result = .ok s →
      ∃ s', (Stmt.read depth x').result = .ok s' ∧ s.Agrees s')
    (hread : b.ReadsAs depth j) : ∃ b' : Block, b'.ReadsAs depth j' ∧ b.Agrees b' := by
  have htype' := (h.field "type").isText "BlockStatement"
  cases hread with
  | @braces o body htype hstart hlist hbody =>
    obtain ⟨body', hbody', hagree⟩ := forall₂_read (A := Stmt.Agrees) (h.field "body").elements
      hbody fun x hx => hpart x (by rw [blockParts, if_pos htype]; exact hx)
    exact ⟨⟨o, body'⟩, .braces (htype'.symm.trans htype) ((h.field "start").int hstart)
      ((h.field "body").isList hlist) hbody', .mk hagree⟩
  | @lone o s htype hstart hs =>
    obtain ⟨s', hs', hagree⟩ := hpart j (by simp [blockParts, htype]) j' s h hs
    exact ⟨⟨o, [s']⟩, .lone (htype'.symm.trans htype) ((h.field "start").int hstart) hs',
      .mk (.cons hagree .nil)⟩

/-- The rules for statements do not depend on the order of members. -/
theorem Stmt.formReads_reordered {depth : Nat} {o : Int} {form : StmtForm} {s : Stmt}
    (h : j.Reordered j') (hform : StmtForm.ofType (j.field "type") = form)
    (hexpr : ∀ x ∈ stmtExprs j, ∀ x' e, x.Reordered x' → Expr.read depth x = .ok e →
      ∃ e', Expr.read depth x' = .ok e' ∧ e.Agrees e')
    (hpart : ∀ x ∈ stmtParts j, ∀ x' s, x.Reordered x' → (Stmt.read depth x).result = .ok s →
      ∃ s', (Stmt.read depth x').result = .ok s' ∧ s.Agrees s')
    (hread : Stmt.FormReads depth j o form s) :
    ∃ s', Stmt.FormReads depth j' o form s' ∧ s.Agrees s' := by
  cases hread with
  | expression he =>
    obtain ⟨e', he', hagree⟩ :=
      hexpr _ (by simp [stmtExprs, hform]) _ _ (h.field "expression") he
    exact ⟨_, .expression he', .exprStmt hagree⟩
  | declaration hlist hds =>
    obtain ⟨ds', hds', hagree⟩ := forall₂_read (A := Declarator.Agrees)
      (h.field "declarations").elements hds fun x hx x' d hxx' =>
        Declarator.readsAs_reordered hxx' fun e => by
          refine hexpr _ ?_ _ e (hxx'.field "init")
          rw [stmtExprs, hform]
          exact List.mem_map.mpr ⟨x, hx, rfl⟩
    exact ⟨_, .declaration ((h.field "declarations").isList hlist) hds', .declStmt hagree⟩
  | whileLoop htest hbody =>
    obtain ⟨test', htest', ht⟩ := hexpr _ (by simp [stmtExprs, hform]) _ _ (h.field "test") htest
    obtain ⟨body', hbody', hb⟩ := Block.readsAs_reordered (h.field "body")
      (fun x hx => hpart x (by simp [stmtParts, hform, hx])) hbody
    exact ⟨_, .whileLoop htest' hbody', .whileStmt ht hb⟩
  | conditional htest hconsequent halternate =>
    obtain ⟨test', htest', ht⟩ := hexpr _ (by simp [stmtExprs, hform]) _ _ (h.field "test") htest
    obtain ⟨consequent', hconsequent', hc⟩ := Block.readsAs_reordered (h.field "consequent")
      (fun x hx => hpart x (by simp [stmtParts, hform, hx])) hconsequent
    obtain ⟨alternate', halternate', ha⟩ := optional_read (h.field "alternate") halternate
      fun b => Block.readsAs_reordered (h.field "alternate")
        fun x hx => hpart x (by simp [stmtParts, hform, hx])
    exact ⟨_, .conditional htest' hconsequent' halternate', .ifStmt ht hc ha⟩
  | throwing hargument =>
    obtain ⟨argument', hargument', ha⟩ := Expr.readOptional_reordered (h.field "argument")
      (fun e => hexpr _ (by simp [stmtExprs, hform]) _ e (h.field "argument")) hargument
    exact ⟨_, .throwing hargument', .throwStmt ha⟩
  | breaking hlabel =>
    obtain ⟨label', hlabel', hl⟩ := memberOf_reordered (h.field "label") hlabel
    exact ⟨_, .breaking hlabel', .breakStmt hl⟩
  | continuing hlabel =>
    obtain ⟨label', hlabel', hl⟩ := memberOf_reordered (h.field "label") hlabel
    exact ⟨_, .continuing hlabel', .continueStmt hl⟩
  | guarded hblock hhandler hfinalizer hparam =>
    obtain ⟨block', hblock', hb⟩ := Block.readsAs_reordered (h.field "block")
      (fun x hx => hpart x (by simp [stmtParts, hform, hx])) hblock
    obtain ⟨handler', hhandler', hh⟩ :=
      Block.readsAs_reordered ((h.field "handler").field "body")
        (fun x hx => hpart x (by simp [stmtParts, hform, hx])) hhandler
    obtain ⟨finalizer', hfinalizer', hf⟩ := optional_read (h.field "finalizer") hfinalizer
      fun b => Block.readsAs_reordered (h.field "finalizer")
        fun x hx => hpart x (by simp [stmtParts, hform, hx])
    obtain ⟨param', hparam', hp⟩ := paramName_reordered (h.field "handler") hparam
    exact ⟨_, .guarded hblock' hhandler' hfinalizer' hparam', .tryStmt hb hh hf hp⟩
  | block hlist hbody =>
    obtain ⟨body', hbody', hagree⟩ := forall₂_read (A := Stmt.Agrees) (h.field "body").elements
      hbody fun x hx => hpart x (by rw [stmtParts, hform]; exact hx)
    exact ⟨_, .block ((h.field "body").isList hlist) hbody', .blockStmt (.mk hagree)⟩
  | unknown hplain =>
    have htype := h.field "type"
    exact ⟨_, .unknown (htype.isPlain.symm.trans hplain), .unsupported htype⟩

/-- A statement is read alike from a document with members in another order. -/
theorem Stmt.read_reordered (depth : Nat) {s : Stmt} (h : j.Reordered j')
    (hspread : ∀ node, StmtIn node j → Spread node)
    (hread : (Stmt.read depth j).result = .ok s) :
    ∃ s', (Stmt.read depth j').result = .ok s' ∧ s.Agrees s' := by
  induction depth generalizing j j' s with
  | zero =>
    rw [Stmt.read] at hread
    cases hread
  | succ depth ih =>
    -- the same rule applies to both documents
    obtain ⟨form, o, hnode, hread⟩ := Stmt.readsAs_of_read hread
    obtain ⟨s', hread', hagree⟩ := Stmt.formReads_reordered h hnode.form_eq
      (fun x hx x' e hxx' => Expr.read_reordered depth hxx' fun node hnode =>
        hspread node (.expr hx hnode))
      (fun x hx x' s hxx' => ih hxx' fun node hnode => hspread node (.part hx hnode)) hread
    have hnode' := hnode.reordered Json.Reordered.stmtForm h
    exact ⟨s', Stmt.read_of_readsAs ⟨form, o, hnode', hread'⟩, hagree⟩

end Reading

/-- **The order of members does not matter.**  A document that is read as a program, and in which no
two operands of an operation that is read start at one place, is read as the same program after the
members of any objects have been put in another order. -/
theorem Program.ofEstree_reordered {tree tree' : Json} {p : Program}
    (hread : Program.ofEstree tree = .ok p) (hspread : AllSpread tree)
    (h : tree.Reordered tree') :
    ∃ p', Program.ofEstree tree' = .ok p' ∧ p.Agrees p' := by
  obtain ⟨htype, hstart, hlist, hbody⟩ := Program.ofEstree_eq_ok_iff.mp hread
  obtain ⟨body', hbody', hagree⟩ := forall₂_read (A := Stmt.Agrees) (h.field "body").elements hbody
    fun x hx x' s hxx' => Stmt.read_reordered tree.depth hxx' (hspread x hx)
  rw [h.depth] at hbody'
  refine ⟨⟨p.offset, body'⟩, Program.ofEstree_eq_ok_iff.mpr ⟨?_, ?_, ?_, hbody'⟩, rfl, hagree⟩
  · exact ((h.field "type").isText "Program").symm.trans htype
  · exact (h.field "start").int hstart
  · exact (h.field "body").isList hlist

/-- `a + v`, where the literal has an object for its value. -/
def sumMembers (value : List (String × Json)) : List (String × Json) :=
  [("type", .str "BinaryExpression"), ("start", .int 0),
    ("left", .obj [("type", .str "Identifier"), ("start", .int 0), ("name", .str "a")]),
    ("operator", .str "+"),
    ("right", .obj [("type", .str "Literal"), ("start", .int 4), ("value", .obj value)])]

/-- The statement that is an expression with some members. -/
def sumDocument (members : List (String × Json)) : Json :=
  programDocument (.arr [nodeDocument (.str "ExpressionStatement") [("expression", .obj members)]])

theorem sumDocument_allSpread (value : List (String × Json)) :
    AllSpread (sumDocument (sumMembers value)) := by
  intro x hx node hin
  obtain rfl := List.mem_singleton.mp hx
  cases hin with
  | part hpart _ => cases hpart
  | expr hexpr hin =>
    obtain rfl := List.mem_singleton.mp hexpr
    cases hin with
    | self =>
      intro _
      refine .cons (fun y hy => ?_) (.cons (fun y hy => absurd hy List.not_mem_nil) .nil)
      obtain rfl := List.mem_singleton.mp hy
      exact fun h => absurd (Json.int.inj h) (by decide)
    | part hpart hin =>
      -- the operands are a name and a literal, and these have no parts
      rcases List.mem_cons.mp hpart with rfl | hpart
      · cases hin with
        | self => exact fun h => by cases h
        | part hpart _ => cases hpart
      · obtain rfl := List.mem_singleton.mp hpart
        cases hin with
        | self => exact fun h => by cases h
        | part hpart _ => cases hpart

theorem sumDocument_reordered {value value' : List (String × Json)}
    (h : (Json.obj value).Reordered (.obj value')) :
    (sumDocument (sumMembers value)).Reordered (sumDocument (sumMembers value').reverse) := by
  have hsum : (Json.obj (sumMembers value)).Reordered (.obj (sumMembers value').reverse) := by
    refine .obj (by simp [sumMembers]) ?_ (List.reverse_perm _).symm
    refine .cons (.same _) (.cons (.same _) (.cons (.same _) (.cons (.same _) (.cons ?_ .nil))))
    exact .obj (by simp) (.cons (.same _) (.cons (.same _) (.cons h .nil))) (.refl _)
  refine .obj (by simp) (.cons (.same _) (.cons (.same _) (.cons ?_ .nil))) (.refl _)
  refine .arr (.cons ?_ .nil)
  exact .obj (by simp) (.cons (.same _) (.cons (.same _) (.cons hsum .nil))) (.refl _)

/-- The program of such a sum. -/
def sumProgram (value : List (String × Json)) : Program where
  offset := 0
  body := [.exprStmt 0 (.operation 0 (.str "BinaryExpression") (.str "+")
    [.identifier 0 "a", .literal 4 (.obj value) .null])]

/-- A sum whose members stand in the reverse order, those of its literal too, is read as the same
program. -/
theorem reversed_sum_read_alike :
    Program.ofEstree (sumDocument (sumMembers [("x", .int 1), ("y", .int 2)])) =
      .ok (sumProgram [("x", .int 1), ("y", .int 2)]) ∧
    AllSpread (sumDocument (sumMembers [("x", .int 1), ("y", .int 2)])) ∧
    (sumDocument (sumMembers [("x", .int 1), ("y", .int 2)])).Reordered
      (sumDocument (sumMembers [("y", .int 2), ("x", .int 1)]).reverse) ∧
    ∃ p', Program.ofEstree (sumDocument (sumMembers [("y", .int 2), ("x", .int 1)]).reverse) =
        .ok p' ∧ (sumProgram [("x", .int 1), ("y", .int 2)]).Agrees p' := by
  have hvalue : (Json.obj [("x", .int 1), ("y", .int 2)]).Reordered
      (.obj [("y", .int 2), ("x", .int 1)]) :=
    .obj (by decide) (.cons (.same _) (.cons (.same _) .nil)) (.swap _ _ _)
  have hspread := sumDocument_allSpread [("x", .int 1), ("y", .int 2)]
  have hreordered := sumDocument_reordered hvalue
  exact ⟨rfl, hspread, hreordered, Program.ofEstree_reordered rfl hspread hreordered⟩

end Liveness
