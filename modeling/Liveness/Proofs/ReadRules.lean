/-
Liveness/Proofs/ReadRules.lean

The rules by which a node is read, one for each form of it.  A rule says which
members of the node are looked at, what they have to hold, and what the node is
read as; the nodes in the members are read with less depth.

The readers follow exactly these rules (`Expr.read_eq_ok_iff`,
`Stmt.read_eq_ok_iff`, `Program.ofEstree_eq_ok_iff`).  The rules are shorter than
the readers: a reader checks a member before it reads it, and what could not be
read anyway need not be ruled out twice.
-/
import Mathlib.Data.List.Forall2
import Liveness.Proofs.LoadErrors

namespace Liveness

open Estree Sorting

/-! ### Members -/

/-- The items of an array; any other value has none. -/
def Json.elements : Json → List Json
  | .arr items => items
  | _ => []

/-- A value that can stand in place of a list: an array, or a value that does not count as
present. -/
def Json.IsList (j : Json) : Prop :=
  (∃ items, j = .arr items) ∨ j.truthy = false

/-- A value that may be left out is `null`, or it is read. -/
inductive Estree.Optional {α : Type} (R : Json → α → Prop) : Json → Option α → Prop
  | none : Optional R .null none
  | some {j : Json} {a : α} : R j a → Optional R j (some a)

/-- A node of a form, which its type decides, that starts at an offset. -/
structure Estree.NodeAt {F : Type} (ofType : Json → F) (form : F) (o : Int) (j : Json) : Prop where
  has_type : j.has "type" = true
  form_eq : ofType (j.field "type") = form
  start_eq : j.field "start" = .int o

/-- Sibling nodes in the order of their integer starts. -/
def Estree.inOrder (nodes : List Json) : List Json :=
  byKey (fun node => (place? node).getD 0) nodes

section Members

variable {j x : Json} {o : Int} {key : String} {xs : List Json}

theorem startOf_eq_ok_iff : startOf j = .ok o ↔ j.field "start" = .int o := by
  unfold startOf
  split
  next offset hstart => rw [hstart, Except.ok.injEq, Json.int.injEq]
  next hstart =>
    constructor
    · intro h
      cases h
    · intro h
      exact absurd h (hstart o)

theorem nodeAt_of_get? {F : Type} (ofType : Json → F) {tag : Json} (htag : j.get? "type" = some tag)
    (hstart : j.field "start" = .int o) : NodeAt ofType (ofType tag) o j where
  has_type := by
    rw [Json.has, htag]
    rfl
  form_eq := by
    rw [Json.field, htag]
    rfl
  start_eq := hstart

theorem Estree.NodeAt.exists_tag {F : Type} {ofType : Json → F} {form : F}
    (h : NodeAt ofType form o j) :
    ∃ tag, j.get? "type" = some tag ∧ ofType tag = form ∧ startOf j = .ok o := by
  have hform := h.form_eq
  have htype := h.has_type
  rw [Json.field] at hform
  rw [Json.has] at htype
  obtain ⟨tag, htag⟩ := Option.isSome_iff_exists.mp htype
  rw [htag] at hform
  exact ⟨tag, htag, hform, startOf_eq_ok_iff.mpr h.start_eq⟩

theorem exists_obj_of_field (h : j.field key = x) (hx : x ≠ .null) : ∃ members, j = .obj members := by
  cases j with
  | obj members => exact ⟨members, rfl⟩
  | _ => exact absurd h.symm hx

theorem child_of_obj {members : List (String × Json)} (h : j.field key = .obj members) :
    child j key = .ok (j.field key) := by
  unfold child
  rw [h]

theorem field_of_child (h : child j key = .ok x) : j.field key = x := by
  unfold child at h
  split at h
  next members hfield =>
    rw [hfield]
    exact Except.ok.inj h
  next =>
    obtain ⟨offset, -, h⟩ := bind_eq_ok.mp h
    cases h

theorem elements_of_absent (h : j.truthy = false) : j.elements = [] := by
  cases j with
  | arr items => simpa [Json.truthy, Json.elements] using h
  | _ => rfl

theorem items_of_isList (h : j.IsList) : items j = .ok j.elements := by
  unfold items
  by_cases hpresent : j.truthy = true
  · rw [if_pos hpresent]
    rcases h with ⟨items, rfl⟩ | habsent
    · rfl
    · rw [hpresent] at habsent
      cases habsent
  · rw [if_neg hpresent, elements_of_absent (Bool.eq_false_iff.mpr hpresent)]

/-- Where no item is a text, the items are those of an array: the items of anything else would be
texts. -/
theorem isList_of_items (h : items j = .ok xs) (htext : ∀ s, .str s ∉ xs) :
    j.IsList ∧ j.elements = xs := by
  by_cases hpresent : j.truthy = true
  · unfold items at h
    rw [if_pos hpresent] at h
    cases j with
    | arr xs =>
      cases h
      exact ⟨Or.inl ⟨xs, rfl⟩, rfl⟩
    | str s =>
      cases h
      -- a text that counts as present has a first character, which would be an item
      rcases hs : s.toList with - | ⟨c, rest⟩
      · rw [String.toList_eq_nil_iff] at hs
        rw [hs] at hpresent
        cases hpresent
      · rw [hs] at htext
        exact absurd List.mem_cons_self (htext (String.singleton c))
    | obj members =>
      cases h
      rcases members with - | ⟨m, rest⟩
      · cases hpresent
      · exact absurd List.mem_cons_self (htext m.1)
    | _ => cases h
  · have hlist : j.IsList := Or.inr (Bool.eq_false_iff.mpr hpresent)
    rw [items_of_isList hlist] at h
    exact ⟨hlist, Except.ok.inj h⟩

end Members

/-! ### Lists of nodes -/

section Lists

variable {α β ε : Type}

theorem mapM_eq_ok_iff {f : α → Except ε β} {xs : List α} {ys : List β} :
    xs.mapM f = .ok ys ↔ List.Forall₂ (fun x y => f x = .ok y) xs ys := by
  induction xs generalizing ys with
  | nil =>
    rw [List.mapM_nil, pure_eq_ok, List.forall₂_nil_left_iff]
    exact eq_comm
  | cons x xs ih =>
    rw [List.mapM_cons, bind_eq_ok, List.forall₂_cons_left_iff]
    constructor
    · rintro ⟨y, hy, h⟩
      obtain ⟨ys', hys, h⟩ := bind_eq_ok.mp h
      cases pure_eq_ok.mp h
      exact ⟨y, ys', hy, ih.mp hys, rfl⟩
    · rintro ⟨y, ys', hy, hys, rfl⟩
      exact ⟨y, hy, bind_eq_ok.mpr ⟨ys', ih.mpr hys, rfl⟩⟩

theorem map_eq_ok {f : α → β} {x : Except ε α} {b : β} :
    f <$> x = .ok b ↔ ∃ a, x = .ok a ∧ f a = b := by
  cases x with
  | error e => simp [Functor.map, Except.map]
  | ok a => simp [Functor.map, Except.map]

theorem exists_of_forall₂ {R : α → β → Prop} {xs : List α} {ys : List β} (h : List.Forall₂ R xs ys)
    {x : α} (hx : x ∈ xs) : ∃ y, R x y := by
  induction h with
  | nil => cases hx
  | cons hr _ ih =>
    rcases List.mem_cons.mp hx with rfl | hx
    · exact ⟨_, hr⟩
    · exact ih hx

/-- Reading the items of a member, where a text is never read. -/
theorem items_mapM_eq_ok_iff {f : Json → Except LoadError α} {j : Json} {ys : List α}
    (hf : ∀ s y, f (.str s) ≠ .ok y) :
    (items j >>= fun xs => xs.mapM f) = .ok ys ↔
      j.IsList ∧ List.Forall₂ (fun x y => f x = .ok y) j.elements ys := by
  rw [bind_eq_ok]
  constructor
  · rintro ⟨xs, hxs, h⟩
    have hys := mapM_eq_ok_iff.mp h
    obtain ⟨hlist, rfl⟩ := isList_of_items hxs fun s hs => by
      obtain ⟨y, hy⟩ := exists_of_forall₂ hys hs
      exact hf s y hy
    exact ⟨hlist, hys⟩
  · rintro ⟨hlist, hys⟩
    exact ⟨_, items_of_isList hlist, mapM_eq_ok_iff.mpr hys⟩

end Lists

/-! ### Expressions -/

/-- The rules for expressions.  What a node of a form that starts at an offset is read as, with the
expressions inside it read to a given depth. -/
inductive Expr.FormReads (depth : Nat) (j : Json) (o : Int) : ExprForm → Expr → Prop
  | identifier {name : String} : j.field "name" = .str name →
      FormReads depth j o .identifier (.identifier o name)
  | literal : FormReads depth j o .literal (.literal o (literalValue j) (j.field "raw"))
  | member {object property : Expr} : Expr.read depth (j.field "object") = .ok object →
      Expr.read depth (j.field "property") = .ok property →
      FormReads depth j o .member (.member o object property (j.field "computed").truthy)
  | call {callee : Expr} {arguments : List (Option Expr)} :
      Expr.read depth (j.field "callee") = .ok callee → (j.field "arguments").IsList →
      List.Forall₂ (fun x e => Expr.readOptional depth x = .ok e) (j.field "arguments").elements
        arguments →
      FormReads depth j o .call (.call o callee arguments)
  | assignment {target value : Expr} : Expr.read depth (j.field "left") = .ok target →
      Expr.read depth (j.field "right") = .ok value →
      FormReads depth j o .assignment
        (.assignment o ((j.get? "operator").getD (.str "=")) target value)
  | update {target : Expr} : Expr.read depth (j.field "argument") = .ok target →
      FormReads depth j o .update (.update o ((j.get? "operator").getD (.str "++")) target)
  /-- Parentheses leave no trace. -/
  | parenthesized {e : Expr} : Expr.read depth (j.field "expression") = .ok e →
      FormReads depth j o .parenthesized e
  | operation {operands : List Expr} :
      List.Forall₂ (fun x e => Expr.read depth x = .ok e) (inOrder (childNodes j)) operands →
      FormReads depth j o .operation
        (.operation o (j.field "type") (j.field "operator") operands)

/-- What a node is read as by the rule for its form. -/
def Expr.ReadsAs (depth : Nat) (j : Json) (e : Expr) : Prop :=
  ∃ form o, NodeAt ExprForm.ofType form o j ∧ Expr.FormReads depth j o form e

section Expressions

variable {depth : Nat} {j x : Json} {e : Expr}

/-- What is read as an expression is an object that starts somewhere. -/
theorem Expr.start_of_read (h : Expr.read depth j = .ok e) : ∃ o, j.field "start" = .int o := by
  cases depth with
  | zero =>
    rw [Expr.read] at h
    cases h
  | succ depth =>
    rw [Expr.read] at h
    split at h
    · cases h
    · obtain ⟨o, hstart, -⟩ := bind_eq_ok.mp h
      exact ⟨o, startOf_eq_ok_iff.mp hstart⟩

/-- Only objects are read as expressions. -/
theorem Expr.exists_obj_of_read (h : Expr.read depth j = .ok e) : ∃ members, j = .obj members := by
  obtain ⟨o, hstart⟩ := Expr.start_of_read h
  exact exists_obj_of_field hstart (by simp)

theorem Expr.readOptional_eq_ok_iff {e : Option Expr} :
    Expr.readOptional depth j = .ok e ↔ Optional (fun x e => Expr.read depth x = .ok e) j e := by
  unfold Expr.readOptional
  split
  · constructor
    · intro h
      cases h
      exact .none
    · intro h
      cases h with
      | none => rfl
      | some h =>
        obtain ⟨members, h⟩ := Expr.exists_obj_of_read h
        cases h
  · next hnull =>
    rw [map_eq_ok]
    constructor
    · rintro ⟨e, he, rfl⟩
      exact .some he
    · intro h
      cases h with
      | none => exact absurd rfl hnull
      | some he => exact ⟨_, he, rfl⟩

theorem place?_of_start {o : Int} (h : j.field "start" = .int o) : place? j = some o := by
  have hget : j.get? "start" = some (.int o) := by
    rw [Json.field] at h
    rcases hget : j.get? "start" with - | v
    · rw [hget] at h
      cases h
    · rw [hget] at h
      exact congrArg some h
  rw [place?, sortKey, hget]
  rfl

theorem perm_sorted {nodes xs : List Json} (h : sorted nodes = .ok xs) : xs.Perm nodes := by
  unfold sorted at h
  split at h
  · cases h
    exact stableBy_perm _ _
  · exact byRuns_perm h

/-- Nodes that start at integers are sorted by these. -/
theorem sorted_of_starts {nodes : List Json} (h : ∀ x ∈ nodes, ∃ o, x.field "start" = .int o) :
    sorted nodes = .ok (inOrder nodes) := by
  have hall : (nodes.all fun node => (place? node).isSome) = true := by
    rw [List.all_eq_true]
    intro x hx
    obtain ⟨o, ho⟩ := h x hx
    rw [place?_of_start ho]
    rfl
  rw [sorted, if_pos hall]
  rfl

theorem Expr.sorted_eq_ok_iff {nodes : List Json} {operands : List Expr} :
    (sorted nodes >>= fun xs => xs.mapM (Expr.read depth)) = .ok operands ↔
      List.Forall₂ (fun x e => Expr.read depth x = .ok e) (inOrder nodes) operands := by
  rw [bind_eq_ok]
  constructor
  · rintro ⟨xs, hxs, h⟩
    have hread := mapM_eq_ok_iff.mp h
    -- nodes that are read start at integers, so it does not matter how others are sorted
    have hstarts : ∀ x ∈ nodes, ∃ o, x.field "start" = .int o := by
      intro x hx
      obtain ⟨e, he⟩ := exists_of_forall₂ hread ((perm_sorted hxs).mem_iff.mpr hx)
      exact Expr.start_of_read he
    rw [sorted_of_starts hstarts] at hxs
    cases hxs
    exact hread
  · intro hread
    refine ⟨_, sorted_of_starts fun x hx => ?_, mapM_eq_ok_iff.mpr hread⟩
    obtain ⟨e, he⟩ := exists_of_forall₂ hread (mem_stableBy.mpr hx)
    exact Expr.start_of_read he

theorem Expr.child_of_read {key : String} (h : Expr.read depth (j.field key) = .ok e) :
    child j key = .ok (j.field key) := by
  obtain ⟨members, hobj⟩ := Expr.exists_obj_of_read h
  exact child_of_obj hobj

theorem Expr.readOptional_str (s : String) (e : Option Expr) :
    Expr.readOptional depth (.str s) ≠ .ok e := by
  intro h
  cases Expr.readOptional_eq_ok_iff.mp h with
  | some hread =>
    obtain ⟨members, hobj⟩ := Expr.exists_obj_of_read hread
    cases hobj

theorem Expr.read_of_readsAs (h : Expr.ReadsAs depth j e) : Expr.read (depth + 1) j = .ok e := by
  obtain ⟨form, o, hnode, h⟩ := h
  obtain ⟨tag, htag, hform, hstart⟩ := hnode.exists_tag
  have hfield : j.field "type" = tag := by rw [Json.field, htag]; rfl
  simp only [Expr.read, htag]
  refine bind_eq_ok.mpr ⟨o, hstart, ?_⟩
  -- the form decides which members are looked at
  rw [hform]
  cases h with
  | identifier hname =>
    rw [hname]
    rfl
  | literal => rfl
  | member hobject hproperty =>
    exact bind_eq_ok.mpr ⟨_, Expr.child_of_read hobject, bind_eq_ok.mpr ⟨_, hobject,
      bind_eq_ok.mpr ⟨_, Expr.child_of_read hproperty, bind_eq_ok.mpr ⟨_, hproperty, rfl⟩⟩⟩⟩
  | call hcallee hlist harguments =>
    obtain ⟨xs, hxs, hmap⟩ := bind_eq_ok.mp
      ((items_mapM_eq_ok_iff Expr.readOptional_str).mpr ⟨hlist, harguments⟩)
    exact bind_eq_ok.mpr ⟨_, Expr.child_of_read hcallee, bind_eq_ok.mpr ⟨_, hcallee,
      bind_eq_ok.mpr ⟨xs, hxs, bind_eq_ok.mpr ⟨_, hmap, rfl⟩⟩⟩⟩
  | assignment htarget hvalue =>
    exact bind_eq_ok.mpr ⟨_, Expr.child_of_read htarget, bind_eq_ok.mpr ⟨_, htarget,
      bind_eq_ok.mpr ⟨_, Expr.child_of_read hvalue, bind_eq_ok.mpr ⟨_, hvalue, rfl⟩⟩⟩⟩
  | update htarget =>
    exact bind_eq_ok.mpr ⟨_, Expr.child_of_read htarget, bind_eq_ok.mpr ⟨_, htarget, rfl⟩⟩
  | parenthesized he => exact bind_eq_ok.mpr ⟨_, Expr.child_of_read he, he⟩
  | operation hoperands =>
    obtain ⟨xs, hxs, hmap⟩ := bind_eq_ok.mp (Expr.sorted_eq_ok_iff.mpr hoperands)
    rw [hfield]
    exact bind_eq_ok.mpr ⟨xs, hxs, bind_eq_ok.mpr ⟨_, hmap, rfl⟩⟩

theorem Expr.readsAs_of_read (h : Expr.read (depth + 1) j = .ok e) : Expr.ReadsAs depth j e := by
  rw [Expr.read] at h
  split at h
  next => cases h
  next tag htag =>
    obtain ⟨o, hstart, h⟩ := bind_eq_ok.mp h
    have hfield : j.field "type" = tag := by rw [Json.field, htag]; rfl
    refine ⟨_, o, nodeAt_of_get? ExprForm.ofType htag (startOf_eq_ok_iff.mp hstart), ?_⟩
    -- from here on the type is looked at for the tag of an operation only
    generalize ExprForm.ofType tag = form at h
    cases form with
    | identifier =>
      dsimp only at h
      split at h
      next name hname =>
        cases h
        exact .identifier hname
      next => cases h
    | literal =>
      cases h
      exact .literal
    | member =>
      obtain ⟨x, hx, h⟩ := bind_eq_ok.mp h
      obtain ⟨object, hobject, h⟩ := bind_eq_ok.mp h
      obtain ⟨y, hy, h⟩ := bind_eq_ok.mp h
      obtain ⟨property, hproperty, h⟩ := bind_eq_ok.mp h
      cases h
      rw [← field_of_child hx] at hobject
      rw [← field_of_child hy] at hproperty
      exact .member hobject hproperty
    | call =>
      obtain ⟨x, hx, h⟩ := bind_eq_ok.mp h
      obtain ⟨callee, hcallee, h⟩ := bind_eq_ok.mp h
      obtain ⟨xs, hxs, h⟩ := bind_eq_ok.mp h
      obtain ⟨arguments, harguments, h⟩ := bind_eq_ok.mp h
      cases h
      rw [← field_of_child hx] at hcallee
      obtain ⟨hlist, hread⟩ := (items_mapM_eq_ok_iff Expr.readOptional_str).mp
        (bind_eq_ok.mpr ⟨xs, hxs, harguments⟩)
      exact .call hcallee hlist hread
    | assignment =>
      obtain ⟨x, hx, h⟩ := bind_eq_ok.mp h
      obtain ⟨target, htarget, h⟩ := bind_eq_ok.mp h
      obtain ⟨y, hy, h⟩ := bind_eq_ok.mp h
      obtain ⟨value, hvalue, h⟩ := bind_eq_ok.mp h
      cases h
      rw [← field_of_child hx] at htarget
      rw [← field_of_child hy] at hvalue
      exact .assignment htarget hvalue
    | update =>
      obtain ⟨x, hx, h⟩ := bind_eq_ok.mp h
      obtain ⟨target, htarget, h⟩ := bind_eq_ok.mp h
      cases h
      rw [← field_of_child hx] at htarget
      exact .update htarget
    | parenthesized =>
      obtain ⟨x, hx, h⟩ := bind_eq_ok.mp h
      rw [← field_of_child hx] at h
      exact .parenthesized h
    | operation =>
      obtain ⟨xs, hxs, h⟩ := bind_eq_ok.mp h
      obtain ⟨operands, hoperands, h⟩ := bind_eq_ok.mp h
      cases h
      rw [← hfield]
      exact .operation (Expr.sorted_eq_ok_iff.mp (bind_eq_ok.mpr ⟨xs, hxs, hoperands⟩))

/-- The reader follows the rules. -/
theorem Expr.read_eq_ok_iff : Expr.read (depth + 1) j = .ok e ↔ Expr.ReadsAs depth j e :=
  ⟨Expr.readsAs_of_read, Expr.read_of_readsAs⟩

end Expressions

/-! ### Statements -/

/-- The name that a pattern is, `null` if it is no plain name. -/
def Estree.plainName (target : Json) : Json :=
  if (target.field "type").isText "Identifier" then target.field "name" else .null

/-- The rule for one variable of a declaration. -/
structure Declarator.ReadsAs (depth : Nat) (j : Json) (d : Declarator) : Prop where
  start_eq : j.field "start" = .int d.offset
  name_eq : d.name = plainName (j.field "id")
  init_eq : Expr.readOptional depth (j.field "init") = .ok d.init

/-- The rules for blocks: braces, and a lone statement in their place. -/
inductive Block.ReadsAs (depth : Nat) (j : Json) : Block → Prop
  | braces {o : Int} {body : List Stmt} : (j.field "type").isText "BlockStatement" = true →
      j.field "start" = .int o → (j.field "body").IsList →
      List.Forall₂ (fun x s => (Stmt.read depth x).result = .ok s) (j.field "body").elements body →
      ReadsAs depth j ⟨o, body⟩
  | lone {o : Int} {s : Stmt} : (j.field "type").isText "BlockStatement" = false →
      j.field "start" = .int o → (Stmt.read depth j).result = .ok s → ReadsAs depth j ⟨o, [s]⟩

/-- The rules for statements.  What a node of a form that starts at an offset is read as, with the
nodes inside it read to a given depth. -/
inductive Stmt.FormReads (depth : Nat) (j : Json) (o : Int) : StmtForm → Stmt → Prop
  | expression {e : Expr} : Expr.read depth (j.field "expression") = .ok e →
      FormReads depth j o .expression (.exprStmt o e)
  | declaration {ds : List Declarator} : (j.field "declarations").IsList →
      List.Forall₂ (Declarator.ReadsAs depth) (j.field "declarations").elements ds →
      FormReads depth j o .declaration (.declStmt o ds)
  | whileLoop {test : Expr} {body : Block} : Expr.read depth (j.field "test") = .ok test →
      Block.ReadsAs depth (j.field "body") body →
      FormReads depth j o .whileLoop (.whileStmt o test body)
  | conditional {test : Expr} {consequent : Block} {alternate : Option Block} :
      Expr.read depth (j.field "test") = .ok test →
      Block.ReadsAs depth (j.field "consequent") consequent →
      Optional (Block.ReadsAs depth) (j.field "alternate") alternate →
      FormReads depth j o .conditional (.ifStmt o test consequent alternate false)
  | throwing {argument : Option Expr} : Expr.readOptional depth (j.field "argument") = .ok argument →
      FormReads depth j o .throwing (.throwStmt o argument)
  | breaking {label : Json} : memberOf (j.field "label") "name" = .ok label →
      FormReads depth j o .breaking (.breakStmt o label)
  | continuing {label : Json} : memberOf (j.field "label") "name" = .ok label →
      FormReads depth j o .continuing (.continueStmt o label)
  | guarded {block handler : Block} {finalizer : Option Block} {param : Json} :
      Block.ReadsAs depth (j.field "block") block →
      Block.ReadsAs depth ((j.field "handler").field "body") handler →
      Optional (Block.ReadsAs depth) (j.field "finalizer") finalizer →
      paramName (j.field "handler") = .ok param →
      FormReads depth j o .guarded (.tryStmt o block handler finalizer param)
  | block {body : List Stmt} : (j.field "body").IsList →
      List.Forall₂ (fun x s => (Stmt.read depth x).result = .ok s) (j.field "body").elements body →
      FormReads depth j o .block (.blockStmt ⟨o, body⟩)
  | unknown : isPlain (j.field "type") = true →
      FormReads depth j o .unknown (.unsupported o (j.field "type"))

/-- What a node is read as by the rule for its form. -/
def Stmt.ReadsAs (depth : Nat) (j : Json) (s : Stmt) : Prop :=
  ∃ form o, NodeAt StmtForm.ofType form o j ∧ Stmt.FormReads depth j o form s

section Statements

variable {depth : Nat} {j owner : Json} {o : Int} {s : Stmt} {key : String}

theorem Noted.result_bind_eq_ok {ν ε α β : Type} {x : Noted ν ε α} {f : α → Noted ν ε β} {b : β} :
    (x >>= f).result = .ok b ↔ ∃ a, x.result = .ok a ∧ (f a).result = .ok b := by
  rw [Noted.result_bind, bind_eq_ok]

theorem readDeclarator_eq_ok_iff {d : Declarator} :
    readDeclarator depth o j = .ok d ↔ d.ReadsAs depth j := by
  unfold readDeclarator
  split
  · constructor
    · intro h
      obtain ⟨start, hstart, h⟩ := bind_eq_ok.mp h
      obtain ⟨init, hinit, h⟩ := bind_eq_ok.mp h
      cases h
      exact ⟨startOf_eq_ok_iff.mp hstart, rfl, hinit⟩
    · rintro ⟨hstart, hname, hinit⟩
      refine bind_eq_ok.mpr ⟨_, startOf_eq_ok_iff.mpr hstart, bind_eq_ok.mpr ⟨_, hinit, ?_⟩⟩
      obtain ⟨offset, name, init⟩ := d
      rw [show name = _ from hname]
      rfl
  next hobj =>
    constructor
    · intro h
      cases h
    · intro h
      obtain ⟨members, rfl⟩ := exists_obj_of_field h.start_eq (by simp)
      exact absurd rfl (hobj members)

theorem readDeclarators_eq_ok_iff {ds : List Declarator} :
    readDeclarators depth o j = .ok ds ↔
      j.IsList ∧ List.Forall₂ (Declarator.ReadsAs depth) j.elements ds := by
  have hrule : List.Forall₂ (Declarator.ReadsAs depth) j.elements ds ↔
      j.elements.mapM (readDeclarator depth o) = .ok ds := by
    simp only [mapM_eq_ok_iff, readDeclarator_eq_ok_iff]
  rw [hrule]
  unfold readDeclarators
  by_cases hpresent : j.truthy = true
  · rw [if_pos hpresent]
    cases j with
    | arr xs => exact ⟨fun h => ⟨Or.inl ⟨xs, rfl⟩, h⟩, fun h => h.2⟩
    | _ => simp [malformed, Json.IsList, hpresent]
  · have habsent := Bool.eq_false_iff.mpr hpresent
    rw [if_neg hpresent, elements_of_absent habsent]
    exact ⟨fun h => ⟨Or.inr habsent, h⟩, fun h => h.2⟩

/-- Only objects are read as statements. -/
theorem Stmt.exists_obj_of_read (h : (Stmt.read depth j).result = .ok s) :
    ∃ members, j = .obj members := by
  cases depth with
  | zero =>
    rw [Stmt.read] at h
    cases h
  | succ depth =>
    rw [Stmt.read] at h
    split at h
    · cases h
    · obtain ⟨o, hstart, -⟩ := Noted.result_bind_eq_ok.mp h
      exact exists_obj_of_field (startOf_eq_ok_iff.mp hstart) (by simp)

/-- Reading the statements in a member. -/
theorem Stmt.items_read_eq_ok_iff {body : List Stmt} :
    ((items j >>= fun xs => xs.mapM fun x => (Stmt.read depth x).result) = .ok body) ↔
      j.IsList ∧
        List.Forall₂ (fun x s => (Stmt.read depth x).result = .ok s) j.elements body := by
  refine items_mapM_eq_ok_iff fun text s h => ?_
  obtain ⟨members, hobj⟩ := Stmt.exists_obj_of_read h
  cases hobj

theorem Block.ReadsAs.exists_obj {b : Block} (h : b.ReadsAs depth j) :
    ∃ members, j = .obj members := by
  -- a block starts somewhere, and so it is an object
  cases h with
  | braces _ hstart => exact exists_obj_of_field hstart (by simp)
  | lone _ hstart => exact exists_obj_of_field hstart (by simp)

theorem readBlock_eq_ok_iff {b : Block} :
    (readBlock (Stmt.read depth) owner key).result = .ok b ↔
      b.ReadsAs depth (owner.field key) := by
  unfold readBlock
  split
  next members hfield =>
    rw [hfield, Noted.result_bind_eq_ok]
    constructor
    · rintro ⟨o, hstart, h⟩
      have hstart := startOf_eq_ok_iff.mp hstart
      split at h
      next htype =>
        obtain ⟨xs, hxs, h⟩ := Noted.result_bind_eq_ok.mp h
        obtain ⟨body, hbody, h⟩ := Noted.result_bind_eq_ok.mp h
        rw [Noted.result_mapM] at hbody
        cases h
        obtain ⟨hlist, hread⟩ := Stmt.items_read_eq_ok_iff.mp (bind_eq_ok.mpr ⟨xs, hxs, hbody⟩)
        exact .braces htype hstart hlist hread
      next htype =>
        obtain ⟨s, hs, h⟩ := Noted.result_bind_eq_ok.mp h
        cases h
        exact .lone (Bool.eq_false_iff.mpr htype) hstart hs
    · intro h
      cases h with
      | @braces o body htype hstart hlist hread =>
        refine ⟨o, startOf_eq_ok_iff.mpr hstart, ?_⟩
        obtain ⟨xs, hxs, hbody⟩ := bind_eq_ok.mp (Stmt.items_read_eq_ok_iff.mpr ⟨hlist, hread⟩)
        rw [← Noted.result_mapM] at hbody
        rw [if_pos htype]
        exact Noted.result_bind_eq_ok.mpr ⟨xs, hxs, Noted.result_bind_eq_ok.mpr ⟨_, hbody, rfl⟩⟩
      | @lone o s htype hstart hs =>
        refine ⟨o, startOf_eq_ok_iff.mpr hstart, ?_⟩
        rw [if_neg (Bool.eq_false_iff.mp htype)]
        exact Noted.result_bind_eq_ok.mpr ⟨s, hs, rfl⟩
  next hfield =>
    constructor
    · intro h
      obtain ⟨o, -, h⟩ := bind_eq_ok.mp h
      cases h
    · intro h
      obtain ⟨members, hobj⟩ := h.exists_obj
      exact absurd hobj (hfield members)

theorem readBlock?_eq_ok_iff {b : Option Block} :
    (readBlock? (Stmt.read depth) owner key).result = .ok b ↔
      Optional (Block.ReadsAs depth) (owner.field key) b := by
  unfold readBlock?
  split
  next hnull =>
    rw [hnull]
    constructor
    · intro h
      cases h
      exact .none
    · intro h
      cases h with
      | none => rfl
      | some h =>
        obtain ⟨members, hobj⟩ := h.exists_obj
        cases hobj
  next hnull =>
    rw [map_eq_pure_bind, Noted.result_bind_eq_ok]
    constructor
    · rintro ⟨b, hb, h⟩
      cases h
      exact .some (readBlock_eq_ok_iff.mp hb)
    · intro h
      generalize hfield : owner.field key = x at h
      cases h with
      | none => exact absurd hfield hnull
      | some h =>
        rw [← hfield] at h
        exact ⟨_, readBlock_eq_ok_iff.mpr h, rfl⟩

theorem readLabel_result (kind : String) :
    (readLabel kind o j).result = memberOf (j.field "label") "name" := by
  unfold readLabel
  rw [Noted.result_bind, Noted.result_liftM]
  rcases memberOf (j.field "label") "name" with error | label
  · rfl
  · cases label <;> rfl

theorem Stmt.read_of_readsAs (h : s.ReadsAs depth j) : (Stmt.read (depth + 1) j).result = .ok s := by
  obtain ⟨form, o, hnode, h⟩ := h
  obtain ⟨tag, htag, hform, hstart⟩ := hnode.exists_tag
  have hfield : j.field "type" = tag := by rw [Json.field, htag]; rfl
  simp only [Stmt.read, htag]
  refine Noted.result_bind_eq_ok.mpr ⟨o, hstart, ?_⟩
  -- the form decides which members are looked at
  rw [hform]
  cases h with
  | expression he =>
    exact Noted.result_bind_eq_ok.mpr ⟨_, Expr.child_of_read he,
      Noted.result_bind_eq_ok.mpr ⟨_, he, rfl⟩⟩
  | declaration hlist hds =>
    exact Noted.result_bind_eq_ok.mpr ⟨_, readDeclarators_eq_ok_iff.mpr ⟨hlist, hds⟩, rfl⟩
  | whileLoop htest hbody =>
    exact Noted.result_bind_eq_ok.mpr ⟨_, Expr.child_of_read htest,
      Noted.result_bind_eq_ok.mpr ⟨_, htest,
      Noted.result_bind_eq_ok.mpr ⟨_, readBlock_eq_ok_iff.mpr hbody, rfl⟩⟩⟩
  | conditional htest hconsequent halternate =>
    exact Noted.result_bind_eq_ok.mpr ⟨_, Expr.child_of_read htest,
      Noted.result_bind_eq_ok.mpr ⟨_, htest,
      Noted.result_bind_eq_ok.mpr ⟨_, readBlock_eq_ok_iff.mpr hconsequent,
      Noted.result_bind_eq_ok.mpr ⟨_, readBlock?_eq_ok_iff.mpr halternate, rfl⟩⟩⟩⟩
  | throwing hargument => exact Noted.result_bind_eq_ok.mpr ⟨_, hargument, rfl⟩
  | breaking hlabel =>
    rw [← readLabel_result "BreakStatement"] at hlabel
    exact Noted.result_bind_eq_ok.mpr ⟨_, hlabel, rfl⟩
  | continuing hlabel =>
    rw [← readLabel_result "ContinueStatement"] at hlabel
    exact Noted.result_bind_eq_ok.mpr ⟨_, hlabel, rfl⟩
  | guarded hblock hhandler hfinalizer hparam =>
    -- the clause has a body, and so it is an object
    obtain ⟨clause, hclause⟩ := hhandler.exists_obj
    obtain ⟨members, hmembers⟩ := exists_obj_of_field hclause (by simp)
    rw [hmembers] at hhandler hparam ⊢
    exact Noted.result_bind_eq_ok.mpr ⟨_, readBlock_eq_ok_iff.mpr hblock,
      Noted.result_bind_eq_ok.mpr ⟨_, readBlock_eq_ok_iff.mpr hhandler,
      Noted.result_bind_eq_ok.mpr ⟨_, readBlock?_eq_ok_iff.mpr hfinalizer,
      Noted.result_bind_eq_ok.mpr ⟨_, hparam, rfl⟩⟩⟩⟩
  | block hlist hbody =>
    obtain ⟨xs, hxs, hread⟩ := bind_eq_ok.mp (Stmt.items_read_eq_ok_iff.mpr ⟨hlist, hbody⟩)
    rw [← Noted.result_mapM] at hread
    exact Noted.result_bind_eq_ok.mpr ⟨xs, hxs, Noted.result_bind_eq_ok.mpr ⟨_, hread, rfl⟩⟩
  | unknown hplain =>
    rw [hfield] at hplain ⊢
    dsimp only
    rw [if_pos hplain]
    rfl

theorem Stmt.readsAs_of_read (h : (Stmt.read (depth + 1) j).result = .ok s) : s.ReadsAs depth j := by
  rw [Stmt.read] at h
  split at h
  next => cases h
  next tag htag =>
    obtain ⟨o, hstart, h⟩ := Noted.result_bind_eq_ok.mp h
    have hfield : j.field "type" = tag := by rw [Json.field, htag]; rfl
    refine ⟨_, o, nodeAt_of_get? StmtForm.ofType htag (startOf_eq_ok_iff.mp hstart), ?_⟩
    -- from here on the type is looked at for the tag of an unknown statement only
    generalize StmtForm.ofType tag = form at h
    cases form with
    | expression =>
      obtain ⟨x, hx, h⟩ := Noted.result_bind_eq_ok.mp h
      obtain ⟨e, he, h⟩ := Noted.result_bind_eq_ok.mp h
      cases h
      rw [← field_of_child hx] at he
      exact .expression he
    | declaration =>
      obtain ⟨ds, hds, h⟩ := Noted.result_bind_eq_ok.mp h
      cases h
      obtain ⟨hlist, hds⟩ := readDeclarators_eq_ok_iff.mp hds
      exact .declaration hlist hds
    | whileLoop =>
      obtain ⟨x, hx, h⟩ := Noted.result_bind_eq_ok.mp h
      obtain ⟨test, htest, h⟩ := Noted.result_bind_eq_ok.mp h
      obtain ⟨body, hbody, h⟩ := Noted.result_bind_eq_ok.mp h
      cases h
      rw [← field_of_child hx] at htest
      exact .whileLoop htest (readBlock_eq_ok_iff.mp hbody)
    | conditional =>
      obtain ⟨x, hx, h⟩ := Noted.result_bind_eq_ok.mp h
      obtain ⟨test, htest, h⟩ := Noted.result_bind_eq_ok.mp h
      obtain ⟨consequent, hconsequent, h⟩ := Noted.result_bind_eq_ok.mp h
      obtain ⟨alternate, halternate, h⟩ := Noted.result_bind_eq_ok.mp h
      cases h
      rw [← field_of_child hx] at htest
      exact .conditional htest (readBlock_eq_ok_iff.mp hconsequent)
        (readBlock?_eq_ok_iff.mp halternate)
    | throwing =>
      obtain ⟨argument, hargument, h⟩ := Noted.result_bind_eq_ok.mp h
      cases h
      exact .throwing hargument
    | breaking =>
      obtain ⟨label, hlabel, h⟩ := Noted.result_bind_eq_ok.mp h
      cases h
      rw [readLabel_result] at hlabel
      exact .breaking hlabel
    | continuing =>
      obtain ⟨label, hlabel, h⟩ := Noted.result_bind_eq_ok.mp h
      cases h
      rw [readLabel_result] at hlabel
      exact .continuing hlabel
    | guarded =>
      dsimp only at h
      split at h
      next members hclause =>
        obtain ⟨block, hblock, h⟩ := Noted.result_bind_eq_ok.mp h
        obtain ⟨handler, hhandler, h⟩ := Noted.result_bind_eq_ok.mp h
        obtain ⟨finalizer, hfinalizer, h⟩ := Noted.result_bind_eq_ok.mp h
        obtain ⟨param, hparam, h⟩ := Noted.result_bind_eq_ok.mp h
        cases h
        rw [← hclause] at hhandler hparam
        exact .guarded (readBlock_eq_ok_iff.mp hblock) (readBlock_eq_ok_iff.mp hhandler)
          (readBlock?_eq_ok_iff.mp hfinalizer) hparam
      next => cases h
    | block =>
      obtain ⟨xs, hxs, h⟩ := Noted.result_bind_eq_ok.mp h
      obtain ⟨body, hbody, h⟩ := Noted.result_bind_eq_ok.mp h
      cases h
      rw [Noted.result_mapM] at hbody
      obtain ⟨hlist, hread⟩ := Stmt.items_read_eq_ok_iff.mp (bind_eq_ok.mpr ⟨xs, hxs, hbody⟩)
      exact .block hlist hread
    | unknown =>
      dsimp only at h
      split at h
      next hplain =>
        cases h
        rw [← hfield] at hplain ⊢
        exact .unknown hplain
      next => cases h

/-- The reader follows the rules. -/
theorem Stmt.read_eq_ok_iff : (Stmt.read (depth + 1) j).result = .ok s ↔ s.ReadsAs depth j :=
  ⟨Stmt.readsAs_of_read, Stmt.read_of_readsAs⟩

end Statements

/-- The rule for programs. -/
structure Program.ReadsAs (j : Json) (p : Program) : Prop where
  type_eq : (j.field "type").isText "Program" = true
  start_eq : j.field "start" = .int p.offset
  isList : (j.field "body").IsList
  body_eq : List.Forall₂ (fun x s => (Stmt.read j.depth x).result = .ok s)
    (j.field "body").elements p.body

/-- The reader of programs follows the rule. -/
theorem Program.ofEstree_eq_ok_iff {j : Json} {p : Program} :
    Program.ofEstree j = .ok p ↔ p.ReadsAs j := by
  unfold Program.ofEstree Program.read
  split
  next htype =>
    constructor
    · intro h
      obtain ⟨o, hstart, h⟩ := Noted.result_bind_eq_ok.mp h
      obtain ⟨xs, hxs, h⟩ := Noted.result_bind_eq_ok.mp h
      obtain ⟨body, hbody, h⟩ := Noted.result_bind_eq_ok.mp h
      cases h
      rw [Noted.result_mapM] at hbody
      obtain ⟨hlist, hread⟩ := Stmt.items_read_eq_ok_iff.mp (bind_eq_ok.mpr ⟨xs, hxs, hbody⟩)
      exact ⟨htype, startOf_eq_ok_iff.mp hstart, hlist, hread⟩
    · rintro ⟨-, hstart, hlist, hread⟩
      obtain ⟨xs, hxs, hbody⟩ := bind_eq_ok.mp (Stmt.items_read_eq_ok_iff.mpr ⟨hlist, hread⟩)
      rw [← Noted.result_mapM] at hbody
      exact Noted.result_bind_eq_ok.mpr ⟨_, startOf_eq_ok_iff.mpr hstart,
        Noted.result_bind_eq_ok.mpr ⟨xs, hxs, Noted.result_bind_eq_ok.mpr ⟨_, hbody, rfl⟩⟩⟩
  next htype =>
    constructor
    · intro h
      cases h
    · intro h
      exact absurd h.type_eq htype

end Liveness
