/-
Liveness/Text/Numeral.lean

Integers written by a person: spacing around the numeral, at most one sign,
decimal digits of any script, and a single low line between two digits.  The
information separators do not count as spacing here.

`read?` is total: it gives `none` on everything outside that grammar, and on
numerals with more digits than `digitLimit`, leading zeros included.
-/
import Liveness.Text.Blank
import Liveness.Text.Digit

namespace Liveness.Text.Numeral

/-- Go on with a numeral whose digits so far have the value `value`. -/
def continueFrom? (value : Nat) : List Char → Option Nat
  | [] => some value
  | '_' :: c :: rest => (digitValue? c).bind fun d => continueFrom? (10 * value + d) rest
  | c :: rest => (digitValue? c).bind fun d => continueFrom? (10 * value + d) rest

/-- The value of an unsigned numeral. -/
def magnitude? : List Char → Option Nat
  | [] => none
  | c :: rest => (digitValue? c).bind fun d => continueFrom? d rest

/-- The value of a numeral with an optional sign. -/
def signed? : List Char → Option Int
  | '+' :: rest => (magnitude? rest).map Int.ofNat
  | '-' :: rest => (magnitude? rest).map fun n => -(n : Int)
  | cs => (magnitude? cs).map Int.ofNat

/-- The integer that a text writes, if it writes one. -/
def read? (s : String) : Option Int :=
  let cs := trim isSpacing s.toList
  if cs.countP isDecimal ≤ digitLimit then signed? cs else none

end Liveness.Text.Numeral
