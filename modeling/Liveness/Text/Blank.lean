/-
Liveness/Text/Blank.lean

The white-space class shared by every text this library reads, and the two
strips that remove it.  The class is wider than ASCII: it holds the control
separators U+001C to U+001F, the next-line control U+0085 and the Unicode space,
line and paragraph separators.  Zero-width characters and the byte order mark
are not in it.

Strips work on lists of characters, where they are compositions of `dropWhile`,
and `strip` is their form on strings.
-/
namespace Liveness.Text

/-- White space that separates words on paper: ASCII blanks and the Unicode separators. -/
def isSpacing (c : Char) : Bool :=
  let n := c.toNat
  (0x09 ≤ n && n ≤ 0x0D) || n == 0x20 || n == 0x85 || n == 0xA0 || n == 0x1680 ||
    (0x2000 ≤ n && n ≤ 0x200A) || n == 0x2028 || n == 0x2029 || n == 0x202F ||
    n == 0x205F || n == 0x3000

/-- The whole white-space class: spacing and the four information separators. -/
def isBlank (c : Char) : Bool :=
  isSpacing c || (0x1C ≤ c.toNat && c.toNat ≤ 0x1F)

/-- Drop the characters of a class from the end of a text. -/
def dropRight (p : Char → Bool) (cs : List Char) : List Char :=
  (cs.reverse.dropWhile p).reverse

/-- Drop the characters of a class from both ends of a text. -/
def trim (p : Char → Bool) (cs : List Char) : List Char :=
  dropRight p (cs.dropWhile p)

/-- A text without the white space around it. -/
def strip (s : String) : String :=
  String.ofList (trim isBlank s.toList)

/-- A text without the white space after it. -/
def stripRight (s : String) : String :=
  String.ofList (dropRight isBlank s.toList)

@[simp] theorem trim_nil (p : Char → Bool) : trim p [] = [] := rfl

end Liveness.Text
