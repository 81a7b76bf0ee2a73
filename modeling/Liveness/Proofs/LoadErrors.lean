/-
Liveness/Proofs/LoadErrors.lean

Why a document is no program.  Most documents that are refused are malformed, and
the error names the node at fault.  Four errors are of another kind, and each of
them comes from a node that holds a value which the reader cannot look into
(`LoadError.CausedBy`): a number or a truth value in place of a list, a value in
place of a label or a parameter, a list or an object as the type of a statement,
or operands that start at values which have no order.

A document without such a node holds a program or is malformed.  A malformed one
makes the command end with the exit code of an error, and after any other error of
the tree it ends without an exit code.
-/
import Liveness.Command.Run
import Liveness.Proofs.SortFailures

namespace Liveness

open Estree

/-! ### Parts of a document -/

mutual
/-- A value and all values nested in it. -/
def Json.parts : Json → List Json
  | .arr items => .arr items :: Json.itemParts items
  | .obj members => .obj members :: Json.memberParts members
  | j => [j]
/-- Some items and all values nested in them. -/
def Json.itemParts : List Json → List Json
  | [] => []
  | j :: rest => j.parts ++ Json.itemParts rest
/-- The values of some members and all values nested in them. -/
def Json.memberParts : List (String × Json) → List Json
  | [] => []
  | (_, j) :: rest => j.parts ++ Json.memberParts rest
end

namespace Json

theorem mem_parts_self (j : Json) : j ∈ j.parts := by
  cases j <;> simp [parts]

theorem parts_subset_itemParts {j : Json} {items : List Json} (h : j ∈ items) :
    j.parts ⊆ itemParts items := by
  induction items with
  | nil => cases h
  | cons i rest ih =>
    rw [itemParts]
    rcases List.mem_cons.mp h with rfl | h
    · exact List.subset_append_left _ _
    · exact List.Subset.trans (ih h) (List.subset_append_right _ _)

theorem parts_subset_memberParts {j : Json} {key : String} {members : List (String × Json)}
    (h : (key, j) ∈ members) : j.parts ⊆ memberParts members := by
  induction members with
  | nil => cases h
  | cons m rest ih =>
    obtain ⟨k, v⟩ := m
    rw [memberParts]
    rcases List.mem_cons.mp h with h | h
    · cases h
      exact List.subset_append_left _ _
    · exact List.Subset.trans (ih h) (List.subset_append_right _ _)

theorem mem_of_lookup {key : String} {members : List (String × Json)} {v : Json}
    (h : lookup key members = some v) : (key, v) ∈ members := by
  induction members with
  | nil => cases h
  | cons m rest ih =>
    obtain ⟨k, w⟩ := m
    rw [lookup] at h
    split at h
    · next hk =>
      cases h
      exact hk ▸ List.mem_cons_self
    · exact List.mem_cons_of_mem _ (ih h)

/-- The parts of an item are parts of its list. -/
theorem parts_subset_arr {j : Json} {items : List Json} (h : j ∈ items) :
    j.parts ⊆ (Json.arr items).parts :=
  List.Subset.trans (parts_subset_itemParts h) (List.subset_cons_self _ _)

theorem parts_subset_obj {j : Json} {key : String} {members : List (String × Json)}
    (h : (key, j) ∈ members) : j.parts ⊆ (Json.obj members).parts :=
  List.Subset.trans (parts_subset_memberParts h) (List.subset_cons_self _ _)

/-- The parts of a member are parts of its object. -/
theorem parts_get? {j v : Json} {key : String} (h : j.get? key = some v) : v.parts ⊆ j.parts := by
  cases j with
  | obj members => exact parts_subset_obj (mem_of_lookup h)
  | _ => cases h

theorem parts_field (j : Json) (key : String) :
    (j.field key).parts ⊆ j.parts ∨ j.field key = .null := by
  rw [field]
  rcases hget : j.get? key with - | v
  · exact Or.inr rfl
  · exact Or.inl (parts_get? hget)

theorem parts_field_obj {j : Json} {key : String} {members : List (String × Json)}
    (h : j.field key = .obj members) : (Json.obj members).parts ⊆ j.parts := by
  rw [← h]
  exact (parts_field j key).resolve_right (by rw [h]; simp)

end Json

/-! ### Causes -/

/-- A node that holds what an error says the reader cannot look into. -/
inductive LoadError.CausedBy (node : Json) : LoadError → Prop
  /-- A value that counts as present stands in place of a list. -/
  | list {key : String} (hkey : key ∈ ["body", "arguments"])
      (hpresent : (node.field key).truthy = true)
      (hkind : (node.field key).kind ∉ [Json.Kind.arr, .str, .obj]) :
      CausedBy node (.notASequence (node.field key).kind)
  /-- Two nodes among the members start at values that have no order. -/
  | starts {a b : Json} (ha : a ∈ childNodes node) (hb : b ∈ childNodes node)
      (horder : (sortKey a).less? (sortKey b) = none) : CausedBy node .unordered
  /-- The type is a list or an object. -/
  | type (hkind : (node.field "type").kind ∈ [Json.Kind.arr, .obj]) :
      CausedBy node (.typeNotPlain (node.field "type").kind)
  /-- A value that counts as present stands in place of a label or a parameter. -/
  | record {key : String} (hkey : key ∈ ["label", "param"])
      (hpresent : (node.field key).truthy = true) (hkind : (node.field key).kind ≠ .obj) :
      CausedBy node (.notARecord (node.field key).kind)

/-- An error says that a document is malformed, or comes from a part of it. -/
def LoadError.Accounted (tree : Json) (e : LoadError) : Prop :=
  (∃ m, e = .malformed m) ∨ ∃ node ∈ tree.parts, e.CausedBy node

/-- A value that is read as a part of a document: it is one, or it is no node. -/
def Json.Inside (j tree : Json) : Prop :=
  j.parts ⊆ tree.parts ∨ j.get? "type" = none

section Accounted

variable {tree node : Json} {α : Type}

theorem LoadError.CausedBy.accounted {e : LoadError} (h : e.CausedBy node)
    (hnode : node ∈ tree.parts) : e.Accounted tree :=
  Or.inr ⟨node, hnode, h⟩

theorem failsBy_malformed (kind : String) (offset : Option Int) (fault : Fault) :
    FailsBy (LoadError.Accounted tree) (malformed kind offset fault : Except LoadError α) :=
  failsBy_error (Or.inl ⟨_, rfl⟩)

theorem failsBy_startOf : FailsBy (LoadError.Accounted tree) (startOf node) := by
  unfold startOf
  split
  · exact failsBy_ok _
  · exact failsBy_malformed _ _ _

theorem failsBy_childMissing (key : String) :
    FailsBy (LoadError.Accounted tree) (childMissing node key : Except LoadError α) :=
  failsBy_startOf.bind fun _ _ => failsBy_malformed _ _ _

theorem failsBy_child (key : String) : FailsBy (LoadError.Accounted tree) (child node key) := by
  unfold child
  split
  · exact failsBy_ok _
  · exact failsBy_childMissing key

theorem parts_child {key : String} {c : Json} (h : child node key = .ok c) :
    c.parts ⊆ node.parts := by
  unfold child at h
  split at h
  · next members hfield =>
    cases h
    exact Json.parts_field_obj hfield
  · obtain ⟨offset, -, h⟩ := Sorting.bind_eq_ok.mp h
    cases h

/-- A list that cannot be gone through is the fault of its node. -/
theorem failsBy_items (hnode : node ∈ tree.parts) {key : String}
    (hkey : key ∈ ["body", "arguments"]) :
    FailsBy (LoadError.Accounted tree) (items (node.field key)) := by
  unfold items
  split
  · next hpresent =>
    split
    · exact failsBy_ok _
    · exact failsBy_ok _
    · exact failsBy_ok _
    · next harr hstr hobj =>
      refine failsBy_error (LoadError.CausedBy.accounted (.list hkey hpresent ?_) hnode)
      rcases hvalue : node.field key <;> simp_all [Json.kind]
  · exact failsBy_ok _

theorem parts_items {j : Json} {xs : List Json} (h : items j = .ok xs) :
    ∀ x ∈ xs, x.Inside j := by
  unfold items at h
  split at h
  · split at h
    · cases h
      exact fun x hx => Or.inl (Json.parts_subset_arr hx)
    · cases h
      intro x hx
      obtain ⟨c, -, rfl⟩ := List.mem_map.mp hx
      exact Or.inr rfl
    · cases h
      intro x hx
      obtain ⟨m, -, rfl⟩ := List.mem_map.mp hx
      exact Or.inr rfl
    · cases h
  · cases h
    exact fun x hx => absurd hx List.not_mem_nil

/-- Items of a member are read as parts of the document. -/
theorem inside_items (hparts : node.parts ⊆ tree.parts) {key : String} {xs : List Json}
    (h : items (node.field key) = .ok xs) : ∀ x ∈ xs, x.Inside tree := by
  intro x hx
  rcases Json.parts_field node key with hsub | hnull
  · have hfield : (node.field key).parts ⊆ tree.parts := List.Subset.trans hsub hparts
    exact (parts_items h x hx).imp_left fun hx => List.Subset.trans hx hfield
  · rw [hnull] at h
    cases h
    cases hx

/-- Nodes among the members are parts. -/
theorem parts_childNodes {c : Json} (h : c ∈ childNodes node) : c.parts ⊆ node.parts := by
  cases node with
  | obj members =>
    obtain ⟨⟨key, j⟩, hmember, hc⟩ := List.mem_flatMap.mp h
    have hj : j.parts ⊆ (Json.obj members).parts := Json.parts_subset_obj hmember
    dsimp only at hc
    split at hc
    · cases hc
    · unfold nodesIn at hc
      split at hc
      · exact List.Subset.trans (Json.parts_subset_arr (List.mem_filter.mp hc).1) hj
      · split at hc
        · rw [List.mem_singleton.mp hc]
          exact hj
        · cases hc
  | _ => cases h

/-- Operands that cannot be sorted are the fault of their node. -/
theorem failsBy_sorted (hnode : node ∈ tree.parts) :
    FailsBy (LoadError.Accounted tree) (sorted (childNodes node)) := by
  unfold sorted
  split
  · exact failsBy_ok _
  · intro e he
    obtain ⟨a, ha, b, hb, hless⟩ := Sorting.byRuns_error he
    unfold startsBefore at hless
    split at hless
    · cases hless
    · next horder =>
      cases hless
      exact (LoadError.CausedBy.starts ha hb horder).accounted hnode

theorem mem_sorted {nodes xs : List Json} (h : sorted nodes = .ok xs) {x : Json} (hx : x ∈ xs) :
    x ∈ nodes := by
  unfold sorted at h
  split at h
  · cases h
    exact Sorting.mem_stableBy.mp hx
  · exact (Sorting.byRuns_perm h).mem_iff.mp hx

end Accounted

/-! ### Expressions -/

/-- A node is a part if it is read as one. -/
theorem Json.Inside.parts {j tree type : Json} (h : j.Inside tree) (htype : j.get? "type" = some type) :
    j.parts ⊆ tree.parts := by
  rcases h with h | h
  · exact h
  · rw [htype] at h
    cases h

/-- Reading a child and going on. -/
theorem FailsBy.childThen {α : Type} {depth : Nat} {j tree : Json} {f : Expr → Except LoadError α}
    (hread : ∀ c : Json, c.Inside tree → FailsBy (LoadError.Accounted tree) (Expr.read depth c))
    (hparts : j.parts ⊆ tree.parts) (key : String)
    (hf : ∀ x, FailsBy (LoadError.Accounted tree) (f x)) :
    FailsBy (LoadError.Accounted tree) (child j key >>= fun c => Expr.read depth c >>= f) := by
  refine (failsBy_child key).bind fun c hc => ?_
  have hinside : c.Inside tree := Or.inl (List.Subset.trans (parts_child hc) hparts)
  exact (hread c hinside).bind fun x _ => hf x

/-- An expression that cannot be read is malformed, or a part of it is at fault. -/
theorem Expr.failsBy_read {tree : Json} (depth : Nat) (j : Json) (hj : j.Inside tree) :
    FailsBy (LoadError.Accounted tree) (Expr.read depth j) := by
  induction depth generalizing j with
  | zero => exact failsBy_malformed _ _ _
  | succ depth ih =>
    rw [Expr.read]
    split
    · exact failsBy_malformed _ _ _
    · next type htype =>
      have hparts : j.parts ⊆ tree.parts := hj.parts htype
      have hnode : j ∈ tree.parts := hparts j.mem_parts_self
      refine failsBy_startOf.bind fun offset _ => ?_
      split
      · -- identifier
        split
        · exact failsBy_pure _
        · exact failsBy_malformed _ _ _
      · -- literal
        exact failsBy_pure _
      · -- member
        refine .childThen ih hparts "object" fun object => ?_
        refine .childThen ih hparts "property" fun property => ?_
        exact failsBy_pure _
      · -- call: items of a text or an object are no nodes, and reading them is malformed
        refine .childThen ih hparts "callee" fun callee => ?_
        refine (failsBy_items hnode (by simp)).bind fun xs hxs => ?_
        refine (failsBy_mapM fun x hx => ?_).bind fun _ _ => failsBy_pure _
        split
        · exact failsBy_pure _
        · exact (ih x (inside_items hparts hxs x hx)).map some
      · -- assignment
        refine .childThen ih hparts "left" fun target => ?_
        refine .childThen ih hparts "right" fun value => ?_
        exact failsBy_pure _
      · -- update
        refine .childThen ih hparts "argument" fun target => ?_
        exact failsBy_pure _
      · -- parenthesized: the child in its place
        exact (failsBy_child "expression").bind fun c hc =>
          ih c (Or.inl (List.Subset.trans (parts_child hc) hparts))
      · -- operation: operands are parts, and sorting them moves them only
        refine (failsBy_sorted hnode).bind fun xs hxs => ?_
        refine (failsBy_mapM fun x hx => ?_).bind fun _ _ => failsBy_pure _
        exact ih x (Or.inl (List.Subset.trans (parts_childNodes (mem_sorted hxs hx)) hparts))

theorem Expr.failsBy_readOptional {tree : Json} (depth : Nat) (j : Json) (hj : j.Inside tree) :
    FailsBy (LoadError.Accounted tree) (Expr.readOptional depth j) := by
  unfold Expr.readOptional
  split
  · exact failsBy_ok none
  · exact (Expr.failsBy_read depth j hj).map some

/-! ### Statements -/

theorem Noted.result_mapM {ν ε α β : Type} (f : α → Noted ν ε β) (xs : List α) :
    (xs.mapM f).result = xs.mapM fun x => (f x).result := by
  induction xs with
  | nil => rfl
  | cons x xs ih =>
    simp only [List.mapM_cons, result_bind, ih, result_pure]
    rfl

section Statements

variable {tree node : Json} {α : Type}

theorem Json.inside_field (hparts : node.parts ⊆ tree.parts) (key : String) :
    (node.field key).Inside tree := by
  rcases Json.parts_field node key with hsub | hnull
  · exact Or.inl (List.Subset.trans hsub hparts)
  · exact Or.inr (by rw [hnull]; rfl)

theorem failsBy_readDeclarator (hparts : node.parts ⊆ tree.parts) (depth : Nat) (offset : Int) :
    FailsBy (LoadError.Accounted tree) (readDeclarator depth offset node) := by
  unfold readDeclarator
  split
  · refine failsBy_startOf.bind fun start _ => ?_
    refine (Expr.failsBy_readOptional depth _ (Json.inside_field hparts "init")).bind fun _ _ => ?_
    exact failsBy_pure _
  · exact failsBy_malformed _ _ _

theorem failsBy_readDeclarators (hparts : node.parts ⊆ tree.parts) (depth : Nat) (offset : Int)
    (key : String) :
    FailsBy (LoadError.Accounted tree) (readDeclarators depth offset (node.field key)) := by
  unfold readDeclarators
  split
  · split
    · next nodes hfield =>
      have hlist : (Json.arr nodes).parts ⊆ node.parts := by
        rw [← hfield]
        exact (Json.parts_field node key).resolve_right (by rw [hfield]; simp)
      refine failsBy_mapM fun j hj => failsBy_readDeclarator ?_ depth offset
      exact List.Subset.trans (Json.parts_subset_arr hj) (List.Subset.trans hlist hparts)
    · exact failsBy_malformed _ _ _
  · exact failsBy_ok []

/-- A label or a parameter that cannot be looked into is the fault of its node. -/
theorem failsBy_memberOf (hnode : node ∈ tree.parts) {key : String}
    (hkey : key ∈ ["label", "param"]) (member : String) :
    FailsBy (LoadError.Accounted tree) (memberOf (node.field key) member) := by
  unfold memberOf
  split
  · next hpresent =>
    split
    · exact failsBy_ok _
    · next hobj =>
      refine failsBy_error (LoadError.CausedBy.accounted (.record hkey hpresent ?_) hnode)
      rcases hvalue : node.field key <;> simp_all [Json.kind]
  · exact failsBy_ok _

theorem failsBy_readLabel (hnode : node ∈ tree.parts) (kind : String) (offset : Int) :
    FailsBy (LoadError.Accounted tree) (readLabel kind offset node).result := by
  unfold readLabel
  simp only [Noted.result_bind, Noted.result_liftM]
  refine (failsBy_memberOf hnode (by simp) "name").bind fun label _ => ?_
  split
  · exact failsBy_ok _
  · exact failsBy_ok _

theorem failsBy_paramName (hnode : node ∈ tree.parts) :
    FailsBy (LoadError.Accounted tree) (paramName node) := by
  refine (failsBy_memberOf hnode (by simp) "type").bind fun type _ => ?_
  refine (failsBy_memberOf hnode (by simp) "name").bind fun name _ => ?_
  exact failsBy_pure _

section Reader

variable {read : Json → Estree.Reading Stmt}

theorem failsBy_readBlock
    (hread : ∀ j : Json, j.Inside tree → FailsBy (LoadError.Accounted tree) (read j).result)
    (hparts : node.parts ⊆ tree.parts) (key : String) :
    FailsBy (LoadError.Accounted tree) (readBlock read node key).result := by
  unfold readBlock
  split
  · next members hfield =>
    have hbody : (Json.obj members).parts ⊆ tree.parts :=
      List.Subset.trans (Json.parts_field_obj hfield) hparts
    simp only [Noted.result_bind, Noted.result_liftM]
    refine failsBy_startOf.bind fun offset _ => ?_
    split
    · simp only [Noted.result_bind, Noted.result_liftM, Noted.result_mapM]
      refine (failsBy_items (hbody (Json.mem_parts_self _)) (by simp)).bind fun xs hxs => ?_
      refine (failsBy_mapM fun x hx => ?_).bind fun _ _ => failsBy_ok _
      exact hread x (inside_items hbody hxs x hx)
    · rw [Noted.result_bind]
      exact (hread _ (Or.inl hbody)).bind fun _ _ => failsBy_ok _
  · exact failsBy_childMissing key

theorem failsBy_readBlock?
    (hread : ∀ j : Json, j.Inside tree → FailsBy (LoadError.Accounted tree) (read j).result)
    (hparts : node.parts ⊆ tree.parts) (key : String) :
    FailsBy (LoadError.Accounted tree) (readBlock? read node key).result := by
  unfold readBlock?
  split
  · exact failsBy_ok none
  · rw [map_eq_pure_bind, Noted.result_bind]
    exact (failsBy_readBlock hread hparts key).bind fun _ _ => failsBy_ok _

end Reader

end Statements

/-- A statement that cannot be read is malformed, or a part of it is at fault. -/
theorem Stmt.failsBy_read {tree : Json} (depth : Nat) (j : Json) (hj : j.Inside tree) :
    FailsBy (LoadError.Accounted tree) (Stmt.read depth j).result := by
  induction depth generalizing j with
  | zero => exact failsBy_malformed _ _ _
  | succ depth ih =>
    rw [Stmt.read]
    split
    · exact failsBy_malformed _ _ _
    · next type htype =>
      have hparts : j.parts ⊆ tree.parts := hj.parts htype
      have hnode : j ∈ tree.parts := hparts j.mem_parts_self
      rw [Noted.result_bind, Noted.result_liftM]
      refine failsBy_startOf.bind fun offset _ => ?_
      split
      · -- expression
        simp only [Noted.result_bind, Noted.result_liftM]
        exact .childThen (Expr.failsBy_read depth) hparts "expression" fun _ => failsBy_ok _
      · -- declaration
        rw [Noted.result_bind, Noted.result_liftM]
        exact (failsBy_readDeclarators hparts depth offset _).bind fun _ _ => failsBy_ok _
      · -- while loop
        simp only [Noted.result_bind, Noted.result_liftM]
        refine .childThen (Expr.failsBy_read depth) hparts "test" fun test => ?_
        exact (failsBy_readBlock ih hparts "body").bind fun _ _ => failsBy_ok _
      · -- conditional
        simp only [Noted.result_bind, Noted.result_liftM]
        refine .childThen (Expr.failsBy_read depth) hparts "test" fun test => ?_
        refine (failsBy_readBlock ih hparts "consequent").bind fun consequent _ => ?_
        exact (failsBy_readBlock? ih hparts "alternate").bind fun _ _ => failsBy_ok _
      · -- throw
        rw [Noted.result_bind, Noted.result_liftM]
        refine FailsBy.bind ?_ fun _ _ => failsBy_ok _
        exact Expr.failsBy_readOptional depth _ (Json.inside_field hparts "argument")
      · -- break
        rw [Noted.result_bind]
        exact (failsBy_readLabel hnode _ _).bind fun _ _ => failsBy_ok _
      · -- continue
        rw [Noted.result_bind]
        exact (failsBy_readLabel hnode _ _).bind fun _ _ => failsBy_ok _
      · -- try: the catch clause is a node of its own, with a body and a parameter
        split
        · next members hhandler =>
          have hclause : (Json.obj members).parts ⊆ tree.parts :=
            List.Subset.trans (Json.parts_field_obj hhandler) hparts
          simp only [Noted.result_bind, Noted.result_liftM]
          refine (failsBy_readBlock ih hparts "block").bind fun block _ => ?_
          refine (failsBy_readBlock ih hclause "body").bind fun body _ => ?_
          refine (failsBy_readBlock? ih hparts "finalizer").bind fun finalizer _ => ?_
          refine (failsBy_paramName (hclause (Json.mem_parts_self _))).bind fun _ _ => ?_
          exact failsBy_ok _
        · exact failsBy_malformed _ _ _
      · -- block
        simp only [Noted.result_bind, Noted.result_liftM, Noted.result_mapM]
        refine (failsBy_items hnode (by simp)).bind fun xs hxs => ?_
        refine (failsBy_mapM fun x hx => ?_).bind fun _ _ => failsBy_ok _
        exact ih x (inside_items hparts hxs x hx)
      · -- any other: only its type is looked at
        split
        · exact failsBy_ok _
        · next hplain =>
          have hfield : j.field "type" = type := by rw [Json.field, htype]; rfl
          have hkind : (j.field "type").kind ∈ [Json.Kind.arr, .obj] := by
            rw [hfield]
            cases type <;> simp_all [isPlain, Json.kind]
          rw [← hfield]
          exact failsBy_error ((LoadError.CausedBy.type hkind).accounted hnode)

/-- A document that holds no program is malformed, or a part of it is at fault. -/
theorem Program.failsBy_ofEstree (tree : Json) :
    FailsBy (LoadError.Accounted tree) (Program.ofEstree tree) := by
  unfold Program.ofEstree Program.read
  split
  · have hparts : tree.parts ⊆ tree.parts := List.Subset.refl _
    simp only [Noted.result_bind, Noted.result_liftM, Noted.result_mapM]
    refine failsBy_startOf.bind fun offset _ => ?_
    refine (failsBy_items tree.mem_parts_self (by simp)).bind fun xs hxs => ?_
    refine (failsBy_mapM fun x hx => ?_).bind fun _ _ => failsBy_ok _
    exact Stmt.failsBy_read tree.depth x (inside_items hparts hxs x hx)
  · exact failsBy_malformed _ _ _

theorem LoadError.CausedBy.not_malformed {node : Json} {e : LoadError} (h : e.CausedBy node) :
    ∀ m, e ≠ .malformed m := by
  intro m hm
  cases h <;> cases hm

/-- An error that is none of a malformed tree has its cause in the document. -/
theorem Program.exists_cause {tree : Json} {e : LoadError} (h : Program.ofEstree tree = .error e)
    (hother : ∀ m, e ≠ .malformed m) : ∃ node ∈ tree.parts, e.CausedBy node := by
  rcases Program.failsBy_ofEstree tree e h with ⟨m, rfl⟩ | hcause
  · exact absurd rfl (hother m)
  · exact hcause

/-! ### The command line -/

theorem bind_eq_error {ε α β : Type} {x : Except ε α} {f : α → Except ε β} {e : ε} :
    x >>= f = .error e ↔ x = .error e ∨ ∃ a, x = .ok a ∧ f a = .error e := by
  rcases x with e' | a <;> simp [bind, Except.bind]

namespace Command

/-- A run gets a document: from its file, or from the front-end for the source text in it. -/
inductive Reads (host : Host) (o : Options) (tree : Json) : Prop
  | document {text : List Char} (hsuffix : (Path.ofString o.file).hasSuffix ".json" = true)
      (htext : loadText host (.ofString o.file) = .ok text)
      (htree : Json.parseWithin Text.digitLimit text = .ok tree)
  | source {text : List Char} (hsuffix : (Path.ofString o.file).hasSuffix ".json" = false)
      (htext : loadText host (.ofString o.file) = .ok text)
      (hblank : Text.strip (String.ofList text) ≠ "")
      (htree : frontEndTree host ((host.environment "NODE_CMD").getD "node") = .ok tree)

variable {host : Host} {o : Options} {tree : Json} {e : LoadError}

section Loading

variable {path : Path}

theorem loadTree_error_iff :
    (loadTree tree).result = .error (.tree e) ↔ Program.ofEstree tree = .error e := by
  show (Program.ofEstree tree).mapError SourceError.tree = _ ↔ _
  rcases Program.ofEstree tree with e' | p
  · show Except.error (SourceError.tree e') = Except.error (SourceError.tree e) ↔ _
    simp
  · show Except.ok p = Except.error (SourceError.tree e) ↔ _
    simp

/-- A text that cannot be had is no fault of a tree. -/
theorem loadText_ne_tree : loadText host path ≠ .error (.tree e) := by
  unfold loadText
  rcases host.read path with fault | bytes
  · intro h
    cases h
  · show (Text.Utf8.decode bytes).mapError SourceError.encoding >>= _ ≠ _
    rcases Text.Utf8.decode bytes with fault | text <;> intro h <;> cases h

/-- Nor is a front-end that gives none. -/
theorem frontEndTree_ne_tree {command : String} :
    frontEndTree host command ≠ .error (.tree e) := by
  unfold frontEndTree
  rcases host.frontEnd with - | answer
  · simp
  · dsimp only
    split
    · simp
    · rcases Json.parseWithin Text.digitLimit answer.output.toList with fault | tree
      · show Except.error (if fault.isLimit then SourceError.integerTooLong fault else
          .frontEndOutput) ≠ _
        split <;> simp
      · show Except.ok tree ≠ _
        simp

/-- An error of the document that a run gets is the error of its loading. -/
theorem Reads.loadFile_error (hreads : Reads host o tree) (h : Program.ofEstree tree = .error e) :
    (loadFile host (.ofString o.file)).result = .error (.tree e) := by
  have hload : (loadTree tree).result = .error (.tree e) := loadTree_error_iff.mpr h
  rw [loadFile]
  rcases hreads with ⟨hsuffix, htext, htree⟩ | ⟨hsuffix, htext, hblank, htree⟩
  · rw [if_pos hsuffix, loadDocument]
    simp only [Noted.result_bind, Noted.result_liftM, bind_eq_error]
    refine Or.inl (Or.inr ⟨_, htext, ?_⟩)
    rw [htree]
    exact hload
  · rw [if_neg (by simp [hsuffix])]
    simp only [Noted.result_bind, Noted.result_liftM, bind_eq_error]
    refine Or.inr ⟨_, htext, Or.inl ?_⟩
    rw [loadSource, if_neg (by simpa using hblank)]
    simp only [Noted.result_bind, Noted.result_note, Noted.result_liftM, bind_eq_error]
    exact Or.inr ⟨(), trivial, Or.inr ⟨tree, htree, hload⟩⟩

/-- An error of loading that is none of a malformed tree is an error of a document. -/
theorem exists_reads (h : (loadFile host (.ofString o.file)).result = .error (.tree e))
    (hother : ∀ m, e ≠ .malformed m) :
    ∃ tree, Reads host o tree ∧ Program.ofEstree tree = .error e := by
  rw [loadFile] at h
  split at h
  · next hsuffix =>
    rw [loadDocument] at h
    simp only [Noted.result_bind, Noted.result_liftM, bind_eq_error] at h
    rcases h with (h | ⟨text, htext, h⟩) | ⟨p, -, h⟩
    · exact absurd h loadText_ne_tree
    · split at h
      · next tree htree => exact ⟨tree, .document hsuffix htext htree, loadTree_error_iff.mp h⟩
      · split at h
        · cases h
        · cases h
          exact absurd rfl (hother _)
    · cases h
  · next hsuffix =>
    simp only [Noted.result_bind, Noted.result_liftM, bind_eq_error] at h
    rcases h with h | ⟨text, htext, h | ⟨p, -, h⟩⟩
    · exact absurd h loadText_ne_tree
    · rw [loadSource] at h
      split at h
      · cases h
      · next hblank =>
        simp only [Noted.result_bind, Noted.result_note, Noted.result_liftM, bind_eq_error] at h
        rcases h with h | ⟨-, -, h | ⟨tree, htree, h⟩⟩
        · cases h
        · exact absurd h frontEndTree_ne_tree
        · refine ⟨tree, .source ?_ htext ?_ htree, loadTree_error_iff.mp h⟩
          · simpa using hsuffix
          · simpa using hblank
    · cases h

end Loading

theorem plan_ending : (plan host o).ending = (fullPlan host o).ending := by
  simp only [plan]

/-- A run crashes on errors of loading that are none of a malformed tree, and on no others. -/
theorem loading_of_crash (h : (plan host o).ending = .crash e) :
    (∃ config, configOf host o = .ok config) ∧
      (loadFile host (.ofString o.file)).result = .error (.tree e) ∧ ∀ m, e ≠ .malformed m := by
  rw [plan_ending] at h
  unfold fullPlan at h
  split at h
  · cases h
  · cases h
  · next config hconfig =>
    dsimp only at h
    split at h
    · cases h
    · next e' hother hload =>
      cases h
      exact ⟨⟨config, hconfig⟩, hload, hother⟩
    · cases h
    · split at h
      · cases h
      · cases h
      · split at h <;> cases h

section Ending

variable {config : Config} (hconfig : configOf host o = .ok config)

include hconfig

theorem ending_of_malformed {m : Malformed}
    (hload : (loadFile host (.ofString o.file)).result = .error (.tree (.malformed m))) :
    (plan host o).ending = .exit exitError := by
  rw [plan_ending]
  unfold fullPlan
  simp only [hconfig, hload]
  rfl

theorem ending_of_other (hload : (loadFile host (.ofString o.file)).result = .error (.tree e))
    (hother : ∀ m, e ≠ .malformed m) : (plan host o).ending = .crash e := by
  rw [plan_ending]
  unfold fullPlan
  simp only [hconfig, hload]

end Ending

end Command

/-- A document holds a program, is malformed, or has a part that holds a value which the reader
cannot look into.  An error of reading a document is left uncaught by a run of the command exactly
on the documents of the last kind; a malformed document gives the exit code of an error.  This is
about reading: a cap that cannot be used, a report that cannot be written and a file that cannot be
saved leave a run without an exit code as well. -/
theorem load_errors_accounted (tree : Json) (host : Host) (o : Command.Options) :
    (∀ e, Program.ofEstree tree = .error e →
      (∃ m, e = .malformed m) ∨ ∃ node ∈ tree.parts, e.CausedBy node) ∧
    (∀ e, (Command.plan host o).ending = .crash e ↔
      ∃ config tree, Command.configOf host o = .ok config ∧ Command.Reads host o tree ∧
        Program.ofEstree tree = .error e ∧ ∃ node ∈ tree.parts, e.CausedBy node) ∧
    ∀ config m, Command.configOf host o = .ok config → Command.Reads host o tree →
      Program.ofEstree tree = .error (.malformed m) →
      (Command.plan host o).ending = .exit Command.exitError := by
  refine ⟨Program.failsBy_ofEstree tree, fun e => ⟨fun h => ?_, ?_⟩, ?_⟩
  · obtain ⟨⟨config, hconfig⟩, hload, hother⟩ := Command.loading_of_crash h
    obtain ⟨tree, hreads, htree⟩ := Command.exists_reads hload hother
    exact ⟨config, tree, hconfig, hreads, htree, Program.exists_cause htree hother⟩
  · rintro ⟨config, tree, hconfig, hreads, htree, node, -, hcause⟩
    exact Command.ending_of_other hconfig (hreads.loadFile_error htree) hcause.not_malformed
  · intro config m hconfig hreads htree
    exact Command.ending_of_malformed hconfig (hreads.loadFile_error htree)

/-- A node that starts at zero. -/
def nodeDocument (type : Json) (members : List (String × Json)) : Json :=
  .obj (("type", type) :: ("start", .int 0) :: members)

/-- A program with a given body. -/
def programDocument (body : Json) : Json :=
  nodeDocument (.str "Program") [("body", body)]

/-- A host with one text of ASCII characters in all its files. -/
def asciiHost (text : List Char) : Host where
  environment := fun _ => none
  read := fun _ => .ok (text.map fun c => c.toNat.toUInt8)
  frontEnd := none

/-- `{"type":"Program","start":0,"body":1}`, with a number in place of the statements. -/
def numberedText : List Char :=
  ['\x7b', '"', 't', 'y', 'p', 'e', '"', ':', '"', 'P', 'r', 'o', 'g', 'r', 'a', 'm', '"', ',',
   '"', 's', 't', 'a', 'r', 't', '"', ':', '0', ',', '"', 'b', 'o', 'd', 'y', '"', ':', '1',
   '\x7d']

/-- With a number in place of the statements a run crashes, and with a list in place of a program it
ends with the exit code of an error. -/
theorem refused_documents :
    (Command.plan (asciiHost numberedText) { file := "a.json" }).ending =
        .crash (.notASequence .int) ∧
      (Command.plan (asciiHost ['[', ']']) { file := "a.json" }).ending =
        .exit Command.exitError := by
  constructor
  · have hread : Program.ofEstree (programDocument (.int 1)) = .error (.notASequence .int) := rfl
    obtain ⟨haccounted, hcrash, -⟩ := load_errors_accounted (programDocument (.int 1))
      (asciiHost numberedText) { file := "a.json" }
    rcases haccounted _ hread with ⟨m, h⟩ | hcause
    · cases h
    · have htext : loadText (asciiHost numberedText) (.ofString "a.json") = .ok numberedText := rfl
      have htree : Json.parseWithin Text.digitLimit numberedText =
        .ok (programDocument (.int 1)) := rfl
      exact (hcrash _).mpr ⟨{}, _, rfl, .document rfl htext htree, hread, hcause⟩
  · obtain ⟨-, -, hexit⟩ := load_errors_accounted (.arr []) (asciiHost ['[', ']'])
      { file := "a.json" }
    have htext : loadText (asciiHost ['[', ']']) (.ofString "a.json") = .ok ['[', ']'] := rfl
    have htree : Json.parseWithin Text.digitLimit ['[', ']'] = .ok (.arr []) := rfl
    exact hexit {} _ rfl (.document rfl htext htree) rfl

/-- Documents that hold no program and are not malformed: a number in place of the statements, a
truth value in place of a label, a list in place of a type, and operands that start at a number
and at a text. -/
theorem unreadable_documents :
    Program.ofEstree (programDocument (.int 1)) = .error (.notASequence .int) ∧
    Program.ofEstree (programDocument (.arr
      [nodeDocument (.str "BreakStatement") [("label", .bool true)]])) =
        .error (.notARecord .bool) ∧
    Program.ofEstree (programDocument (.arr [nodeDocument (.arr []) []])) =
      .error (.typeNotPlain .arr) ∧
    Program.ofEstree (programDocument (.arr
      [nodeDocument (.str "ExpressionStatement") [("expression",
        nodeDocument (.str "ArrayExpression") [("elements", .arr
          [nodeDocument (.str "ThisExpression") [],
            .obj [("type", .str "ThisExpression"), ("start", .str "a")]])])]])) =
        .error .unordered :=
  ⟨rfl, rfl, rfl, rfl⟩

end Liveness
