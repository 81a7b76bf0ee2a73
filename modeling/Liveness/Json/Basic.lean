/-
Liveness/Json/Basic.lean

The documents this library reads: JSON values with integers and fractions kept
apart, and objects as lists of members in the order of their text.

`get?` finds a member, `field` takes a missing member for `null`, and `truthy`
says which values count as present where a document leaves a choice.  `depth`
bounds every recursion over a document.
-/
import Liveness.Number.Binary64

namespace Liveness

/-- A JSON value. -/
inductive Json where
  | null
  | bool (value : Bool)
  | int (value : Int)
  | float (value : Binary64)
  | str (value : String)
  | arr (items : List Json)
  | obj (members : List (String × Json))

namespace Json

instance : Inhabited Json := ⟨.null⟩

/-- The seven kinds of values. -/
inductive Kind where
  | null | bool | int | float | str | arr | obj
  deriving DecidableEq, Repr

/-- The name of a kind in messages. -/
def Kind.name : Kind → String
  | .null => "NoneType"
  | .bool => "bool"
  | .int => "int"
  | .float => "float"
  | .str => "str"
  | .arr => "list"
  | .obj => "dict"

/-- The kind of a value. -/
def kind : Json → Kind
  | .null => .null
  | .bool _ => .bool
  | .int _ => .int
  | .float _ => .float
  | .str _ => .str
  | .arr _ => .arr
  | .obj _ => .obj

/-- Whether a value is this very text. -/
def isText (text : String) : Json → Bool
  | .str s => s == text
  | _ => false

/-- Whether a value counts as present: `null`, `false`, zeros and empty values do not. -/
def truthy : Json → Bool
  | .null => false
  | .bool b => b
  | .int n => n != 0
  | .float x => !x.isZero
  | .str s => s != ""
  | .arr items => !items.isEmpty
  | .obj members => !members.isEmpty

/-! ### Members of objects -/

/-- The value of the first member with a key. -/
def lookup (key : String) : List (String × Json) → Option Json
  | [] => none
  | (k, v) :: rest => if k = key then some v else lookup key rest

/-- Set a member: a key that is there keeps its place and takes the new value. -/
def putMember (key : String) (value : Json) : List (String × Json) → List (String × Json)
  | [] => [(key, value)]
  | (k, v) :: rest => if k = key then (k, value) :: rest else (k, v) :: putMember key value rest

/-- The member of an object with a key. -/
def get? (key : String) : Json → Option Json
  | .obj members => lookup key members
  | _ => none

/-- The member of an object with a key, `null` if there is none. -/
def field (key : String) (j : Json) : Json :=
  (j.get? key).getD .null

/-- Whether an object has a member with a key. -/
def has (key : String) (j : Json) : Bool :=
  (j.get? key).isSome

/-! ### Depth -/

mutual
/-- How deep arrays and objects are nested in a value. -/
def depth : Json → Nat
  | .arr items => depthItems items + 1
  | .obj members => depthMembers members + 1
  | _ => 0
/-- The greatest depth of some items. -/
def depthItems : List Json → Nat
  | [] => 0
  | j :: rest => max j.depth (depthItems rest)
/-- The greatest depth of some members. -/
def depthMembers : List (String × Json) → Nat
  | [] => 0
  | (_, j) :: rest => max j.depth (depthMembers rest)
end

theorem depth_le_of_lookup {key : String} {members : List (String × Json)} {v : Json}
    (h : lookup key members = some v) : v.depth ≤ depthMembers members := by
  induction members with
  | nil => simp [lookup] at h
  | cons m rest ih =>
    obtain ⟨k, w⟩ := m
    by_cases hk : k = key
    · simp only [lookup, hk, if_pos, Option.some.injEq] at h
      subst h
      exact Nat.le_max_left _ _
    · simp only [lookup, hk, if_neg, not_false_eq_true] at h
      exact Nat.le_trans (ih h) (Nat.le_max_right _ _)

/-- A member lies less deep than its object. -/
theorem depth_get?_lt {key : String} {j v : Json} (h : j.get? key = some v) :
    v.depth < j.depth := by
  cases j with
  | obj members =>
    exact Nat.lt_succ_of_le (depth_le_of_lookup (show lookup key members = some v from h))
  | _ => simp [get?] at h

end Json

end Liveness
