/-
Liveness/Json/Writer.lean

Writing JSON text.  Items and members stand on lines of their own, two blanks
deeper than what encloses them, and the text is printable ASCII: every other
character is escaped by its UTF-16 units.
-/
import Liveness.Json.Basic
import Liveness.Text.Quoted

namespace Liveness.Json

/-- An escape by number. -/
def unicodeEscape (unit : Nat) : List Char :=
  '\\' :: 'u' :: Text.hexDigits 4 unit

/-- One character of a string. -/
def writeChar (c : Char) : List Char :=
  if c == '"' then ['\\', '"']
  else if c == '\\' then ['\\', '\\']
  else if c == '\n' then ['\\', 'n']
  else if c == '\r' then ['\\', 'r']
  else if c == '\t' then ['\\', 't']
  else if c == '\x0c' then ['\\', 'f']
  else if c == '\x08' then ['\\', 'b']
  else if 0x20 ≤ c.toNat && c.toNat < 0x7F then [c]
  else if c.toNat < 0x10000 then unicodeEscape c.toNat
  else
    let n := c.toNat - 0x10000
    unicodeEscape (0xD800 + n / 0x400) ++ unicodeEscape (0xDC00 + n % 0x400)

/-- A string with its quotes. -/
def writeString (s : String) : List Char :=
  '"' :: s.toList.flatMap writeChar ++ ['"']

/-- A new line at a depth of nesting. -/
def newLine (depth : Nat) : List Char :=
  '\n' :: List.replicate (2 * depth) ' '

/-- A number with a fraction. -/
def writeFloat : Binary64 → String
  | .nan => "NaN"
  | .infinite negative => if negative then "-Infinity" else "Infinity"
  | x => x.text

mutual
/-- The text of a value that stands at a depth of nesting. -/
def write (depth : Nat) : Json → List Char
  | .null => "null".toList
  | .bool b => if b then "true".toList else "false".toList
  | .int n => (toString n).toList
  | .float x => (writeFloat x).toList
  | .str s => writeString s
  | .arr [] => ['[', ']']
  | .arr (j :: rest) =>
    '[' :: newLine (depth + 1) ++ write (depth + 1) j ++ writeItems (depth + 1) rest ++
      newLine depth ++ [']']
  | .obj [] => ['\x7b', '\x7d']
  | .obj ((key, j) :: rest) =>
    '\x7b' :: newLine (depth + 1) ++ writeString key ++ [':', ' '] ++ write (depth + 1) j ++
      writeMembers (depth + 1) rest ++ newLine depth ++ ['\x7d']
/-- The text of the items after the first. -/
def writeItems (depth : Nat) : List Json → List Char
  | [] => []
  | j :: rest => ',' :: newLine depth ++ write depth j ++ writeItems depth rest
/-- The text of the members after the first. -/
def writeMembers (depth : Nat) : List (String × Json) → List Char
  | [] => []
  | (key, j) :: rest =>
    ',' :: newLine depth ++ writeString key ++ [':', ' '] ++ write depth j ++
      writeMembers depth rest
end

/-- The text of a value. -/
def pretty (j : Json) : String :=
  String.ofList (j.write 0)

end Liveness.Json
