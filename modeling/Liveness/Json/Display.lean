/-
Liveness/Json/Display.lean

How values appear in messages, and how they compare.  A text is shown as it is;
every other value is shown by its literal, with texts inside lists and objects
quoted.

`less?` is the order that sorts siblings by where they start: numbers and
booleans by value, texts by code points, lists at their first difference.
Values of unlike kinds have no order, and neither have `null` and objects.
-/
import Liveness.Json.Basic
import Liveness.Text.Quoted

namespace Liveness.Json

/-! ### Text of a value -/

mutual
/-- The literal of a value. -/
def literal : Json → String
  | .null => "None"
  | .bool b => if b then "True" else "False"
  | .int n => toString n
  | .float x => x.text
  | .str s => Text.quoted s
  | .arr items => "[" ++ String.intercalate ", " (literals items) ++ "]"
  | .obj members => "\x7b" ++ String.intercalate ", " (memberLiterals members) ++ "\x7d"
/-- The literals of some items. -/
def literals : List Json → List String
  | [] => []
  | j :: rest => j.literal :: literals rest
/-- The literals of some members. -/
def memberLiterals : List (String × Json) → List String
  | [] => []
  | (k, j) :: rest => (Text.quoted k ++ ": " ++ j.literal) :: memberLiterals rest
end

/-- A value as a message shows it. -/
def display : Json → String
  | .str s => s
  | j => j.literal

@[simp] theorem display_str (s : String) : display (.str s) = s := rfl

/-! ### Order -/

/-- The number that a value stands for. -/
def number? : Json → Option Binary64
  | .bool b => some (.ofInt (if b then 1 else 0))
  | .int n => some (.ofInt n)
  | .float x => some x
  | _ => none

mutual
/-- Two values that mean the same: numbers by value, objects whatever the order of members. -/
def same : Json → Json → Bool
  | .null, .null => true
  | .str s, .str t => s == t
  | .arr xs, .arr ys => sameItems xs ys
  | .obj ms, .obj ns => ms.length == ns.length && sameMembers ms ns
  | x, y =>
    match x.number?, y.number? with
    | some a, some b => a.same b
    | _, _ => false
/-- Two lists that mean the same, item by item. -/
def sameItems : List Json → List Json → Bool
  | [], [] => true
  | x :: xs, y :: ys => same x y && sameItems xs ys
  | _, _ => false
/-- Whether each of some members is in an object. -/
def sameMembers : List (String × Json) → List (String × Json) → Bool
  | [], _ => true
  | (k, x) :: rest, ns =>
    (match lookup k ns with
    | some y => same x y
    | none => false) && sameMembers rest ns
end

mutual
/-- Whether one value comes before another, if they have an order. -/
def less? : Json → Json → Option Bool
  | .str s, .str t => some (s < t)
  | .arr xs, .arr ys => lessItems? xs ys
  | x, y =>
    match x.number?, y.number? with
    | some a, some b => some (a.less b)
    | _, _ => none
/-- Lists compare at the first place where they differ, the shorter one first if nowhere. -/
def lessItems? : List Json → List Json → Option Bool
  | [], ys => some !ys.isEmpty
  | _ :: _, [] => some false
  | x :: xs, y :: ys => if same x y then lessItems? xs ys else less? x y
end

end Liveness.Json
