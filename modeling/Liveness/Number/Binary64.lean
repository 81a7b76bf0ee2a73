/-
Liveness/Number/Binary64.lean

Numbers with a fraction, as documents write them: double precision values held
exactly.  A finite value is a natural mantissa times a power of two, so order
and reading are integer arithmetic, and no machine float is involved.

Reading a decimal rounds to the nearest value, ties to the even mantissa.
Writing a value gives the fewest decimal digits that read back to it, the
nearer of two candidates, and `layout` decides how the digits stand.
-/
namespace Liveness

/-- A double precision value: no number, an infinity, or `± mantissa * 2 ^ exponent`. -/
inductive Binary64 where
  | nan
  | infinite (negative : Bool)
  | finite (negative : Bool) (mantissa : Nat) (exponent : Int)
  deriving DecidableEq, Repr

namespace Binary64

/-- An integer as an exact value. -/
def ofInt (n : Int) : Binary64 :=
  .finite (n < 0) n.natAbs 0

/-- A finite value in units of `2 ^ unit`, for a `unit` not above its exponent. -/
def scaled (negative : Bool) (mantissa : Nat) (exponent unit : Int) : Int :=
  let magnitude : Int := mantissa * Nat.pow 2 (exponent - unit).toNat
  if negative then -magnitude else magnitude

/-- Strict order; nothing is below or above `nan`. -/
def less : Binary64 → Binary64 → Bool
  | .nan, _ => false
  | _, .nan => false
  | .infinite n, .infinite n' => n && !n'
  | .infinite n, .finite .. => n
  | .finite .., .infinite n => !n
  | .finite n m e, .finite n' m' e' =>
    scaled n m e (min e e') < scaled n' m' e' (min e e')

/-- Two values that stand for the same number, both zeros being one; `nan` is the same as `nan`. -/
def same : Binary64 → Binary64 → Bool
  | .nan, .nan => true
  | .nan, _ => false
  | _, .nan => false
  | x, y => !less x y && !less y x

/-- A value that is zero, whatever its sign. -/
def isZero : Binary64 → Bool
  | .finite _ 0 _ => true
  | _ => false

/-- The least integer not below a finite value. -/
def ceiling? : Binary64 → Option Int
  | .finite negative mantissa exponent =>
    let whole : Int := if negative then -(mantissa : Int) else mantissa
    some (-(-(whole * Nat.pow 2 exponent.toNat)).fdiv (Nat.pow 2 (-exponent).toNat))
  | _ => none

/-! ### Reading decimals -/

/-- A quotient to the nearest natural number, a half to the even neighbour. -/
def roundDiv (num den : Nat) : Nat :=
  let quotient := num / den
  let rest := 2 * (num % den)
  if rest < den then quotient
  else if den < rest then quotient + 1
  else quotient + quotient % 2

/-- The exponent of the least positive value. -/
def leastExponent : Int := -1074

/-- The largest exponent of a finite value. -/
def greatestExponent : Int := 971

/-- A positive ratio divided by `2 ^ exponent`, as a ratio again. -/
def shiftRatio (num den : Nat) (exponent : Int) : Nat × Nat :=
  (num * Nat.pow 2 (-exponent).toNat, den * Nat.pow 2 exponent.toNat)

/-- The value nearest to a ratio. -/
def ofRatio (negative : Bool) (num den : Nat) : Binary64 :=
  if num == 0 then .finite negative 0 leastExponent
  else
    let low : Int := max leastExponent ((num.log2 : Int) - den.log2 - 53)
    let (n, d) := shiftRatio num den low
    let exponent := if Nat.pow 2 53 ≤ n / d then low + 1 else low
    let (n, d) := shiftRatio num den exponent
    let mantissa := roundDiv n d
    let (mantissa, exponent) :=
      if mantissa == Nat.pow 2 53 then (Nat.pow 2 52, exponent + 1) else (mantissa, exponent)
    if greatestExponent < exponent then .infinite negative
    else .finite negative mantissa exponent

/-- The value nearest to `± digits * 10 ^ power`.  Powers far outside the range need no
arithmetic: they give an infinity or a zero. -/
def ofDecimal (negative : Bool) (digits : Nat) (power : Int) : Binary64 :=
  let places : Int := (Nat.toDigits 10 digits).length + power
  if digits == 0 || places < -330 then .finite negative 0 leastExponent
  else if 310 < places then .infinite negative
  else ofRatio negative (digits * Nat.pow 10 power.toNat) (Nat.pow 10 (-power).toNat)

/-! ### Writing the fewest digits -/

/-- A decimal number: `digits * 10 ^ power`. -/
structure Decimal where
  digits : Nat
  power : Int
  deriving DecidableEq, Repr

/-- The number of places of a positive ratio before its decimal point; zero or less for a ratio
below one tenth. -/
def places (num den : Nat) : Int :=
  if den ≤ num then (Nat.toDigits 10 (num / den)).length
  else 1 - (Nat.toDigits 10 (den / num)).length

/-- The best decimal of `count` digits that reads back to `num / den`: of the two neighbours on
that grid, the nearer one that does, the even one if both are as near. -/
def candidate? (num den : Nat) (count : Nat) : Option Decimal :=
  let power : Int := places num den - count
  let n := num * Nat.pow 10 (-power).toNat
  let d := den * Nat.pow 10 power.toNat
  let below := n / d
  let target := ofRatio false num den
  let good (c : Nat) : Bool := ofDecimal false c power == target
  let nearest := roundDiv n d
  let other := if nearest == below then below + 1 else below
  if good nearest then some ⟨nearest, power⟩
  else if good other then some ⟨other, power⟩
  else none

/-- The shortest decimal that reads back to a positive ratio. -/
def shortest (num den : Nat) : Decimal :=
  ((List.range 17).findSome? fun k => candidate? num den (k + 1)).getD ⟨0, 0⟩

/-- Digits with a decimal point after `point` of them, or in exponent form when the point would
stand far away: from `10 ^ 16` up and below one ten-thousandth. -/
def layout (digits : List Char) (point : Int) : List Char :=
  if -4 < point && point ≤ 16 then
    if point ≤ 0 then
      ['0', '.'] ++ List.replicate (-point).toNat '0' ++ digits
    else
      let whole := digits.take point.toNat
      let fraction := digits.drop point.toNat
      whole ++ List.replicate (point.toNat - whole.length) '0' ++ ['.'] ++
        (if fraction.isEmpty then ['0'] else fraction)
  else
    let exponent := point - 1
    let size := Nat.toDigits 10 exponent.natAbs
    let mark := if exponent < 0 then ['e', '-'] else ['e', '+']
    let fraction := digits.drop 1
    digits.take 1 ++ (if fraction.isEmpty then [] else '.' :: fraction) ++ mark ++
      (if size.length < 2 then '0' :: size else size)

/-- The text of a value. -/
def text : Binary64 → String
  | .nan => "nan"
  | .infinite negative => if negative then "-inf" else "inf"
  | .finite negative mantissa exponent =>
    let sign := if negative then ['-'] else []
    let body :=
      if mantissa == 0 then ['0', '.', '0']
      else
        let decimal := shortest (mantissa * Nat.pow 2 exponent.toNat) (Nat.pow 2 (-exponent).toNat)
        let all := Nat.toDigits 10 decimal.digits
        let digits := (all.reverse.dropWhile (· == '0')).reverse
        layout digits (all.length + decimal.power)
    String.ofList (sign ++ body)

end Binary64

end Liveness
