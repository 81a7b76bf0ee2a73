/-
Liveness/Text/Position.lean

Lines of a text: one newline convention on reading, and the line and column of
an offset.  Lines and columns count from one, and an offset one past the last
character still has a position.
-/
namespace Liveness.Text

/-- Go on making every line end a single newline; `done` is what came before, last first. -/
def unifyNewlinesFrom (done : List Char) : List Char → List Char
  | [] => done.reverse
  | '\r' :: '\n' :: rest => unifyNewlinesFrom ('\n' :: done) rest
  | '\r' :: rest => unifyNewlinesFrom ('\n' :: done) rest
  | c :: rest => unifyNewlinesFrom (c :: done) rest

/-- Make every line end (carriage return, newline, or both) a single newline. -/
def unifyNewlines (cs : List Char) : List Char :=
  unifyNewlinesFrom [] cs

/-- A place in a text. -/
structure Position where
  line : Nat
  column : Nat
  deriving DecidableEq, Repr

/-- The position after reading one character. -/
def Position.advance (p : Position) (c : Char) : Position :=
  if c == '\n' then ⟨p.line + 1, 1⟩ else ⟨p.line, p.column + 1⟩

/-- The position after reading a text from its start. -/
def Position.after (cs : List Char) : Position :=
  cs.foldl Position.advance ⟨1, 1⟩

/-- The position of an offset, if the offset lies in the text or right after it. -/
def position? (source : String) (offset : Int) : Option Position :=
  if 0 ≤ offset ∧ offset.toNat ≤ source.length then
    some (Position.after (source.toList.take offset.toNat))
  else none

end Liveness.Text
