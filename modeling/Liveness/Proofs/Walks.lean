/-
Liveness/Proofs/Walks.lean

The two walks over an expression.  Accesses are looked for among the expressions that
`Expr.subexpressions` visits, and what they read is listed by `Expr.names`, a walk of
its own.  The two go the same way: the variables read are those among the visited
expressions, in the order of the visits, less those in the property of a plain member
access (`Expr.names_visited_outside_properties`).

An expression can stand inside another more than once, here in a property and there
not, so visits are told apart by address: at each step down the index of a part.  The
walks are compared one node at a time: `Expr.subexpressions_eq` and `Expr.names_eq` say
what each does with the parts of a node, and the rest is by induction over parts.
-/
import Liveness.Syntax.Expr
import Mathlib.Data.List.Basic

namespace Liveness

/-! ### Parts -/

/-- The expressions directly inside an expression. -/
def Expr.parts : Expr → List Expr
  | .identifier .. | .literal .. => []
  | .member _ object property _ => [object, property]
  | .call _ callee arguments => callee :: arguments.flatMap Option.toList
  | .assignment _ _ target value => [target, value]
  | .update _ _ target => [target]
  | .operation _ _ _ operands => operands

theorem Expr.sizeOf_lt_of_mem_parts {x e : Expr} (h : x ∈ e.parts) : sizeOf x < sizeOf e := by
  cases e with
  | identifier | literal => cases h
  | member o object property computed =>
    obtain rfl | rfl : x = object ∨ x = property := by simpa [Expr.parts] using h
    all_goals
      rw [Expr.member.sizeOf_spec]
      omega
  | call o callee arguments =>
    rw [Expr.call.sizeOf_spec]
    rcases List.mem_cons.mp h with rfl | h
    · omega
    · obtain ⟨argument, hargument, hx⟩ := List.mem_flatMap.mp h
      obtain rfl : argument = some x := by simpa using hx
      have hlt := List.sizeOf_lt_of_mem hargument
      rw [Option.some.sizeOf_spec] at hlt
      omega
  | assignment o operator target value =>
    obtain rfl | rfl : x = target ∨ x = value := by simpa [Expr.parts] using h
    all_goals
      rw [Expr.assignment.sizeOf_spec]
      omega
  | update o operator target =>
    obtain rfl : x = target := by simpa [Expr.parts] using h
    rw [Expr.update.sizeOf_spec]
    omega
  | operation o tag operator operands =>
    have hlt : sizeOf x < sizeOf operands := List.sizeOf_lt_of_mem h
    rw [Expr.operation.sizeOf_spec]
    omega

/-- What holds of an expression if it holds of its parts holds of every expression. -/
theorem Expr.of_parts {P : Expr → Prop} (h : ∀ e : Expr, (∀ x ∈ e.parts, P x) → P e) (e : Expr) :
    P e :=
  h e fun x _ => Expr.of_parts h x
termination_by sizeOf e
decreasing_by exact Expr.sizeOf_lt_of_mem_parts ‹x ∈ e.parts›

/-! ### What the walks do at one node -/

section Lists

variable {α β : Type} {f : α → List β}

theorem flatMap_zipIdx (f : α → List β) (l : List α) (n : Nat) :
    ((l.zipIdx n).flatMap fun p => f p.1) = l.flatMap f := by
  rw [← List.flatMap_map Prod.fst f, List.zipIdx_map_fst]

/-- A walk over a list that takes one item after another. -/
theorem eq_flatMap_of_cons {walk : List α → List β} (hnil : walk [] = [])
    (hcons : ∀ x rest, walk (x :: rest) = f x ++ walk rest) (l : List α) :
    walk l = l.flatMap f := by
  induction l with
  | nil => exact hnil
  | cons x rest ih => rw [hcons, ih, List.flatMap_cons]

/-- A walk over a list that passes over what is left out. -/
theorem eq_flatMap_of_some {walk : List (Option α) → List β} (hnil : walk [] = [])
    (hnone : ∀ rest, walk (none :: rest) = walk rest)
    (hsome : ∀ x rest, walk (some x :: rest) = f x ++ walk rest) (l : List (Option α)) :
    walk l = (l.flatMap Option.toList).flatMap f := by
  rw [List.flatMap_assoc]
  refine eq_flatMap_of_cons hnil (fun x rest => ?_) l
  cases x with
  | none => exact hnone rest
  | some x => rw [hsome, Option.toList_some, List.flatMap_singleton]

end Lists

theorem Expr.inArguments_eq (arguments : List (Option Expr)) :
    Expr.inArguments arguments = (arguments.flatMap Option.toList).flatMap (·.subexpressions) :=
  eq_flatMap_of_some rfl (fun _ => rfl) (fun _ _ => rfl) arguments

theorem Expr.inOperands_eq (operands : List Expr) :
    Expr.inOperands operands = operands.flatMap (·.subexpressions) :=
  eq_flatMap_of_cons rfl (fun _ _ => rfl) operands

/-- An expression is visited before its parts, and these one after another. -/
theorem Expr.subexpressions_eq (e : Expr) :
    e.subexpressions = e :: e.parts.flatMap (·.subexpressions) := by
  cases e <;> simp [Expr.subexpressions, Expr.parts, Expr.inArguments_eq, Expr.inOperands_eq]

theorem Expr.argumentNames_eq (arguments : List (Option Expr)) :
    Expr.argumentNames arguments = (arguments.flatMap Option.toList).flatMap (·.names) :=
  eq_flatMap_of_some rfl (fun _ => rfl) (fun _ _ => rfl) arguments

theorem Expr.operandNames_eq (operands : List Expr) :
    Expr.operandNames operands = operands.flatMap (·.names) :=
  eq_flatMap_of_cons rfl (fun _ _ => rfl) operands

/-- Whether the part at an index is the property of a plain member access. -/
def Expr.isProperty : Expr → Nat → Bool
  | .member _ _ _ computed, index => !computed && index == 1
  | _, _ => false

/-- A variable reads itself, and any other expression reads what its parts read, the property of
a plain member access left out. -/
theorem Expr.names_eq (e : Expr) :
    e.names = e.bareName?.toList ++
      e.parts.zipIdx.flatMap fun p => if e.isProperty p.2 then [] else p.1.names := by
  cases e with
  | member o object property computed =>
    cases computed <;> simp [Expr.names, Expr.parts, Expr.bareName?, Expr.isProperty]
  | call o callee arguments =>
    simp [Expr.names, Expr.parts, Expr.bareName?, Expr.isProperty, Expr.argumentNames_eq,
      flatMap_zipIdx]
  | _ =>
    simp [Expr.names, Expr.parts, Expr.bareName?, Expr.isProperty, Expr.operandNames_eq,
      flatMap_zipIdx]

/-! ### Addresses -/

/-- The expression at an address, if there is one. -/
def Expr.at? (e : Expr) (address : List Nat) : Option Expr :=
  address.foldlM (fun x i => x.parts[i]?) e

/-- Everything inside an expression with its address. -/
def Expr.visits (e : Expr) : List (List Nat × Expr) :=
  ([], e) :: e.parts.zipIdx.attach.flatMap fun p =>
    p.1.1.visits.map fun v => (p.1.2 :: v.1, v.2)
termination_by sizeOf e
decreasing_by exact Expr.sizeOf_lt_of_mem_parts (List.fst_mem_of_mem_zipIdx p.2)

/-- The address leads into the property of a plain member access, which is its part 1. -/
def Expr.InProperty (e : Expr) (address : List Nat) : Prop :=
  ∃ above below offset object property,
    address = above ++ 1 :: below ∧ e.at? above = some (.member offset object property false)

section Addresses

variable {e x : Expr} {i : Nat} {address : List Nat}

@[simp] theorem Expr.at?_nil : e.at? [] = some e := rfl

@[simp] theorem Expr.at?_cons : e.at? (i :: address) = e.parts[i]?.bind (·.at? address) := rfl

theorem Expr.isProperty_iff :
    e.isProperty i = true ↔ i = 1 ∧ ∃ o object property, e = .member o object property false := by
  cases e <;> simp [Expr.isProperty, and_comm]

theorem Expr.not_inProperty_nil : ¬ e.InProperty [] := by
  rintro ⟨above, below, o, object, property, h, -⟩
  simp at h

/-- An address leads into a property at its first step or below it. -/
theorem Expr.inProperty_cons :
    e.InProperty (i :: address) ↔
      e.isProperty i = true ∨ ∃ x, e.parts[i]? = some x ∧ x.InProperty address := by
  constructor
  · rintro ⟨above, below, o, object, property, haddress, hat⟩
    cases above with
    | nil =>
      obtain ⟨rfl, rfl⟩ := List.cons.inj haddress
      obtain rfl := Option.some.inj hat
      exact .inl rfl
    | cons j above =>
      obtain ⟨rfl, rfl⟩ := List.cons.inj haddress
      obtain ⟨x, hx, hat⟩ := Option.bind_eq_some_iff.mp hat
      exact .inr ⟨x, hx, above, below, o, object, property, rfl, hat⟩
  · rintro (h | ⟨x, hx, above, below, o, object, property, rfl, hat⟩)
    · obtain ⟨rfl, o, object, property, rfl⟩ := Expr.isProperty_iff.mp h
      exact ⟨[], address, o, object, property, rfl, rfl⟩
    · refine ⟨i :: above, below, o, object, property, rfl, ?_⟩
      rw [Expr.at?_cons, hx]
      exact hat

/-- Whether an address leads into a property, step by step. -/
def Expr.entersProperty : Expr → List Nat → Bool
  | _, [] => false
  | e, i :: address => e.isProperty i || e.parts[i]?.any (·.entersProperty address)

theorem Expr.entersProperty_iff :
    e.entersProperty address = true ↔ e.InProperty address := by
  induction address generalizing e with
  | nil => simp [Expr.entersProperty, Expr.not_inProperty_nil]
  | cons i address ih => simp [Expr.entersProperty, Expr.inProperty_cons, ih, Option.any_eq_true]

instance (e : Expr) (address : List Nat) : Decidable (e.InProperty address) :=
  decidable_of_iff _ Expr.entersProperty_iff

/-! ### The visits -/

theorem Expr.visits_eq (e : Expr) :
    e.visits = ([], e) :: e.parts.zipIdx.flatMap fun p =>
      p.1.visits.map fun v => (p.2 :: v.1, v.2) := by
  rw [Expr.visits, List.flatMap_subtype (g := fun p => p.1.visits.map fun v => (p.2 :: v.1, v.2)),
    List.unattach_attach]
  exact fun _ _ => rfl

/-- Each address is visited once: the visits follow the order of the addresses. -/
theorem Expr.visits_ordered (e : Expr) :
    e.visits.Pairwise fun v w => List.Lex (· < ·) v.1 w.1 := by
  induction e using Expr.of_parts with
  | h e ih =>
    rw [Expr.visits_eq, List.pairwise_cons, List.pairwise_flatMap]
    refine ⟨?_, ?_, ?_⟩
    · -- the way down to a part is longer than none
      intro v hv
      obtain ⟨p, -, hv⟩ := List.mem_flatMap.mp hv
      obtain ⟨w, -, rfl⟩ := List.mem_map.mp hv
      exact .nil
    · intro p hp
      rw [List.pairwise_map]
      exact (ih p.1 (List.fst_mem_of_mem_zipIdx hp)).imp .cons
    · -- different parts differ at the first step
      have hindices : (e.parts.zipIdx.map Prod.snd).Pairwise (· < ·) := by
        rw [List.zipIdx_map_snd]
        exact List.pairwise_lt_range' 1
      refine (List.pairwise_map.mp hindices).imp fun {p q} hpq v hv w hw => ?_
      obtain ⟨v, -, rfl⟩ := List.mem_map.mp hv
      obtain ⟨w, -, rfl⟩ := List.mem_map.mp hw
      exact .rel hpq

/-- What is at an address is visited there, and nothing else is. -/
theorem Expr.mem_visits : (address, x) ∈ e.visits ↔ e.at? address = some x := by
  induction e using Expr.of_parts generalizing address with
  | h e ih =>
    rw [Expr.visits_eq, List.mem_cons, List.mem_flatMap]
    cases address with
    | nil => simp [eq_comm]
    | cons i address =>
      rw [Expr.at?_cons, Option.bind_eq_some_iff]
      constructor
      · rintro (h | ⟨p, hp, hv⟩)
        · -- the expression itself has no step down
          cases h
        · obtain ⟨v, hvisit, hv⟩ := List.mem_map.mp hv
          cases hv
          have hat := (ih p.1 (List.fst_mem_of_mem_zipIdx hp)).mp hvisit
          exact ⟨p.1, List.mem_zipIdx_iff_getElem?.mp hp, hat⟩
      · rintro ⟨y, hy, hat⟩
        have hvisit := (ih y (List.mem_of_getElem? hy)).mpr hat
        have hpart : (y, i) ∈ e.parts.zipIdx := List.mk_mem_zipIdx_iff_getElem?.mpr hy
        exact .inr ⟨(y, i), hpart, List.mem_map.mpr ⟨_, hvisit, rfl⟩⟩

/-- The visited expressions are those that the first walk lists. -/
theorem Expr.map_visits (e : Expr) : e.visits.map (·.2) = e.subexpressions := by
  induction e using Expr.of_parts with
  | h e ih =>
    rw [Expr.subexpressions_eq, Expr.visits_eq, List.map_cons, List.map_flatMap,
      ← flatMap_zipIdx (·.subexpressions) e.parts 0]
    refine congrArg (e :: ·) (List.flatMap_congr fun p hp => ?_)
    rw [← ih p.1 (List.fst_mem_of_mem_zipIdx hp), List.map_map]
    rfl

/-- Of the visits to a part that is a property none is outside, and of those to another part the
ones that are outside within it. -/
theorem Expr.filter_visits_below (hpart : e.parts[i]? = some x) :
    ((x.visits.map fun v => (i :: v.1, v.2)).filter fun v => ¬ e.InProperty v.1) =
      if e.isProperty i then []
      else (x.visits.filter fun v => ¬ x.InProperty v.1).map fun v => (i :: v.1, v.2) := by
  have hbelow : ∀ v : List Nat × Expr,
      e.InProperty (i :: v.1) ↔ e.isProperty i = true ∨ x.InProperty v.1 := by
    intro v
    simp [Expr.inProperty_cons, hpart]
  rw [List.filter_map]
  by_cases hproperty : e.isProperty i = true
  · simp [hproperty, hbelow]
  · simp [hproperty, hbelow, Function.comp_def]

/-- The second walk lists the variables among the visits outside properties. -/
theorem Expr.names_eq_visited (e : Expr) :
    e.names = (e.visits.filter fun v => ¬ e.InProperty v.1).filterMap (·.2.bareName?) := by
  induction e using Expr.of_parts with
  | h e ih =>
    -- part by part, a property is left out by both sides
    have hparts : e.names = e.bareName?.toList ++ (e.parts.zipIdx.flatMap fun p =>
        ((p.1.visits.map fun v => (p.2 :: v.1, v.2)).filter fun v => ¬ e.InProperty v.1).filterMap
          (·.2.bareName?)) := by
      rw [Expr.names_eq]
      refine congrArg (_ ++ ·) (List.flatMap_congr fun p hp => ?_)
      rw [Expr.filter_visits_below (List.mem_zipIdx_iff_getElem?.mp hp)]
      split
      · rfl
      · rw [List.filterMap_map, ih p.1 (List.fst_mem_of_mem_zipIdx hp)]
        rfl
    rw [Expr.visits_eq, List.filter_cons_of_pos (by simp [Expr.not_inProperty_nil]),
      List.filter_flatMap, hparts]
    cases hname : e.bareName? <;> simp [hname, List.filterMap_flatMap]

end Addresses

/-- The walk that visits everything inside an expression and the walk that lists what it reads
agree.  The first comes to each address of the expression once, in the order of the text, and the
second lists the names of the variables among these visits, in their order and with repetitions,
those left out that stand in the property of a plain member access at any depth. -/
theorem Expr.names_visited_outside_properties (e : Expr) :
    e.subexpressions = e.visits.map (·.2) ∧
    (∀ address x, (address, x) ∈ e.visits ↔ e.at? address = some x) ∧
    (e.visits.Pairwise fun v w => List.Lex (· < ·) v.1 w.1) ∧
    e.names = (e.visits.filter fun v => ¬ e.InProperty v.1).filterMap (·.2.bareName?) :=
  ⟨e.map_visits.symm, fun _ _ => Expr.mem_visits, e.visits_ordered, e.names_eq_visited⟩

/-- An index is read, but not if it stands in a property: in `a.(b[c])[d]` only `a` and `d` are. -/
example :
    (Expr.member 0
      (.member 0 (.identifier 0 "a") (.member 3 (.identifier 3 "b") (.identifier 5 "c") true) false)
      (.identifier 9 "d") true).names = ["a", "d"] :=
  rfl

end Liveness
