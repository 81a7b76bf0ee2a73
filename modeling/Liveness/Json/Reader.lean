/-
Liveness/Json/Reader.lean

Reading JSON text.  The grammar is the usual one with three additions: the
words `NaN`, `Infinity` and `-Infinity` are numbers.  A key that occurs twice
keeps its first place and its last value.  An escaped surrogate pair is one
character; half a pair alone is the replacement character, so texts that differ
in lone halves only are read as one text, and such keys as one key.

Every reader takes the rest of the text and gives back what it left, so the
place of a fault is the rest at which it was found.  Nesting is bounded by the
length of the text, and `parseWithin` hides that bound.

Every reader is given a limit on the digits of an integer.
-/
import Liveness.Json.Basic
import Liveness.Text.Position

namespace Liveness.Json

/-- What a text lacks to be JSON. -/
inductive Lack where
  | byteOrderMark
  | value
  | propertyName
  | colon
  | comma
  | unterminated
  | control
  | escape
  | unicodeEscape
  | extraData
  /-- An integer has more digits than the limit allows. -/
  | digits (count limit : Nat)
  deriving DecidableEq, Repr

/-- The wording of a fault. -/
def Lack.message : Lack → String
  | .byteOrderMark => "Unexpected UTF-8 BOM (decode using utf-8-sig)"
  | .value => "Expecting value"
  | .propertyName => "Expecting property name enclosed in double quotes"
  | .colon => "Expecting ':' delimiter"
  | .comma => "Expecting ',' delimiter"
  | .unterminated => "Unterminated string starting at"
  | .control => "Invalid control character at"
  | .escape => "Invalid \\escape"
  | .unicodeEscape => "Invalid \\uXXXX escape"
  | .extraData => "Extra data"
  | .digits count limit =>
    s!"Exceeds the limit ({limit} digits) for integer string conversion: value has {count} digits; " ++
      "use sys.set_int_max_str_digits() to increase the limit"

/-- A fault with the rest of the text from the place where it was found. -/
structure Stuck where
  lack : Lack
  rest : List Char
  deriving DecidableEq, Repr

/-- The white space of JSON. -/
def isGap (c : Char) : Bool :=
  c == ' ' || c == '\t' || c == '\n' || c == '\r'

/-- The rest of a text after its white space. -/
def skipGap (cs : List Char) : List Char :=
  cs.dropWhile isGap

/-! ### Strings -/

/-- The value of a hexadecimal digit. -/
def hexValue? (c : Char) : Option Nat :=
  if '0' ≤ c ∧ c ≤ '9' then some (c.toNat - '0'.toNat)
  else if 'a' ≤ c ∧ c ≤ 'f' then some (c.toNat - 'a'.toNat + 10)
  else if 'A' ≤ c ∧ c ≤ 'F' then some (c.toNat - 'A'.toNat + 10)
  else none

/-- The value of four hexadecimal digits. -/
def hexUnit? (a b c d : Char) : Option Nat := do
  let a ← hexValue? a
  let b ← hexValue? b
  let c ← hexValue? c
  let d ← hexValue? d
  return ((a * 16 + b) * 16 + c) * 16 + d

/-- The character of a one-letter escape. -/
def shortEscape? : Char → Option Char
  | '"' => some '"'
  | '\\' => some '\\'
  | '/' => some '/'
  | 'b' => some '\x08'
  | 'f' => some '\x0c'
  | 'n' => some '\n'
  | 'r' => some '\r'
  | 't' => some '\t'
  | _ => none

/-- A leading surrogate. -/
def isHighUnit (n : Nat) : Bool := 0xD800 ≤ n && n < 0xDC00

/-- A trailing surrogate. -/
def isLowUnit (n : Nat) : Bool := 0xDC00 ≤ n && n < 0xE000

/-- The character of one unit.  A surrogate alone has none and is replaced, whichever it is, so
strings that differ in such surrogates only are read as the same. -/
def unitChar (n : Nat) : Char :=
  if isHighUnit n || isLowUnit n then '\ufffd' else Char.ofNat n

/-- The characters of a row of units: a leading and a trailing surrogate side by side are one. -/
def joinUnits : List Nat → List Char
  | [] => []
  | [n] => [unitChar n]
  | n :: m :: rest =>
    if isHighUnit n && isLowUnit m then
      Char.ofNat (0x10000 + (n - 0xD800) * 0x400 + (m - 0xDC00)) :: joinUnits rest
    else unitChar n :: joinUnits (m :: rest)

/-- The units of a string up to its closing quote.  `start` is the text from the opening quote
on, `done` holds the units read so far, last first. -/
def stringUnits (start : List Char) (done : List Nat) :
    List Char → Except Stuck (List Nat × List Char)
  | [] => .error ⟨.unterminated, start⟩
  | '"' :: rest => .ok (done.reverse, rest)
  | '\\' :: [] => .error ⟨.unterminated, start⟩
  | '\\' :: 'u' :: rest =>
    match rest with
    | a :: b :: c :: d :: more :: rest' =>
      match hexUnit? a b c d with
      | some n => stringUnits start (n :: done) (more :: rest')
      | none => .error ⟨.unicodeEscape, 'u' :: rest⟩
    | _ => .error ⟨.unicodeEscape, 'u' :: rest⟩
  | '\\' :: c :: rest =>
    match shortEscape? c with
    | some e => stringUnits start (e.toNat :: done) rest
    | none => .error ⟨.escape, '\\' :: c :: rest⟩
  | c :: rest =>
    if c.toNat < 0x20 then .error ⟨.control, c :: rest⟩
    else stringUnits start (c.toNat :: done) rest

/-- A string, after its opening quote. -/
def readString (cs : List Char) : Except Stuck (String × List Char) := do
  let (units, rest) ← stringUnits ('"' :: cs) [] cs
  return (String.ofList (joinUnits units), rest)

/-! ### Numbers -/

/-- The value of a row of ASCII digits. -/
def natOfDigits (cs : List Char) : Nat :=
  cs.foldl (fun n c => n * 10 + (c.toNat - '0'.toNat)) 0

/-- The fraction of a number: a point and at least one digit. -/
def fraction : List Char → List Char × List Char
  | '.' :: rest =>
    let digits := rest.takeWhile Char.isDigit
    if digits.isEmpty then ([], '.' :: rest) else (digits, rest.dropWhile Char.isDigit)
  | cs => ([], cs)

/-- The digits of an exponent with their sign, if there is at least one. -/
def exponentDigits? (negative : Bool) (cs : List Char) : Option (Int × List Char) :=
  let digits := cs.takeWhile Char.isDigit
  if digits.isEmpty then none
  else
    let n : Int := natOfDigits digits
    some (if negative then -n else n, cs.dropWhile Char.isDigit)

/-- The exponent of a number, if a whole one is there. -/
def exponent? : List Char → Option (Int × List Char)
  | 'e' :: rest | 'E' :: rest =>
    match rest with
    | '-' :: more => exponentDigits? true more
    | '+' :: more => exponentDigits? false more
    | _ => exponentDigits? false rest
  | _ => none

/-- The whole part of a number: a zero, or digits that do not start with one. -/
def wholeDigits? : List Char → Option (List Char × List Char)
  | '0' :: rest => some (['0'], rest)
  | c :: rest =>
    if c.isDigit then some (c :: rest.takeWhile Char.isDigit, rest.dropWhile Char.isDigit)
    else none
  | [] => none

/-- A number without its sign: an integer unless a fraction or an exponent follows. -/
def unsigned? (negative : Bool) (cs : List Char) : Option (Json × List Char) := do
  let (whole, rest) ← wholeDigits? cs
  let (decimals, rest) := fraction rest
  match exponent? rest with
  | some (power, rest) =>
    return (.float (.ofDecimal negative (natOfDigits (whole ++ decimals))
      (power - decimals.length)), rest)
  | none =>
    if decimals.isEmpty then
      let n : Int := natOfDigits whole
      return (.int (if negative then -n else n), rest)
    else
      return (.float (.ofDecimal negative (natOfDigits (whole ++ decimals))
        (-(decimals.length : Int))), rest)

/-- The number of digits in the whole part of a number without its sign. -/
def wholeCount (cs : List Char) : Nat :=
  ((wholeDigits? cs).map (·.1.length)).getD 0

/-- A number; an integer may have as many digits as the limit says. -/
def readNumber (limit : Nat) (cs : List Char) : Except Stuck (Json × List Char) :=
  let (negative, body) :=
    match cs with
    | '-' :: rest => (true, rest)
    | _ => (false, cs)
  match unsigned? negative body with
  | some (.int n, rest) =>
    if wholeCount body ≤ limit then .ok (.int n, rest)
    else .error ⟨.digits (wholeCount body) limit, cs⟩
  | some result => .ok result
  | none => .error ⟨.value, cs⟩

/-! ### Values -/

/-- The rest of a text after a word, if it starts with it. -/
def afterWord? (word : String) (cs : List Char) : Option (List Char) :=
  if word.toList.isPrefixOf cs then some (cs.drop word.length) else none

/-- The words that are values. -/
def words : List (String × Json) :=
  [("null", .null), ("true", .bool true), ("false", .bool false), ("NaN", .float .nan),
    ("Infinity", .float (.infinite false)), ("-Infinity", .float (.infinite true))]

/-- A word or a number. -/
def readPlain (limit : Nat) (cs : List Char) : Except Stuck (Json × List Char) :=
  match words.findSome? fun (word, j) => (afterWord? word cs).map fun rest => (j, rest) with
  | some result => .ok result
  | none => readNumber limit cs

mutual
/-- A value; `bound` is at least twice the length of the text. -/
def readValue (limit : Nat) : (bound : Nat) → List Char → Except Stuck (Json × List Char)
  | 0, cs => .error ⟨.value, cs⟩
  | bound + 1, cs =>
    match cs with
    | '"' :: rest => do
      let (s, rest) ← readString rest
      return (.str s, rest)
    | '\x7b' :: rest =>
      match skipGap rest with
      | '\x7d' :: rest => .ok (.obj [], rest)
      | rest => readMembers limit bound [] rest
    | '[' :: rest =>
      match skipGap rest with
      | ']' :: rest => .ok (.arr [], rest)
      | rest => readItems limit bound [] rest
    | _ => readPlain limit cs
/-- The items of an array from the next one on; `done` holds those before it, last first. -/
def readItems (limit : Nat) :
    (bound : Nat) → (done : List Json) → List Char → Except Stuck (Json × List Char)
  | 0, _, cs => .error ⟨.value, cs⟩
  | bound + 1, done, cs => do
    let (j, rest) ← readValue limit bound cs
    match skipGap rest with
    | ']' :: rest => return (.arr (j :: done).reverse, rest)
    | ',' :: rest => readItems limit bound (j :: done) (skipGap rest)
    | rest => throw ⟨.comma, rest⟩
/-- The members of an object from the next one on; `done` holds those before it. -/
def readMembers (limit : Nat) :
    (bound : Nat) → (done : List (String × Json)) → List Char → Except Stuck (Json × List Char)
  | 0, _, cs => .error ⟨.value, cs⟩
  | bound + 1, done, cs =>
    match cs with
    | '"' :: rest => do
      let (key, rest) ← readString rest
      match skipGap rest with
      | ':' :: rest =>
        let (j, rest) ← readValue limit bound (skipGap rest)
        match skipGap rest with
        | '\x7d' :: rest => return (.obj (putMember key j done), rest)
        | ',' :: rest => readMembers limit bound (putMember key j done) (skipGap rest)
        | rest => throw ⟨.comma, rest⟩
      | rest => throw ⟨.colon, rest⟩
    | _ => .error ⟨.propertyName, cs⟩
end

/-! ### Whole texts -/

/-- Why a text is not JSON: what it lacks and the offset where. -/
structure ReadError where
  lack : Lack
  offset : Nat
  place : Text.Position
  deriving DecidableEq, Repr

/-- Whether a text was refused for the size of an integer and not for its form. -/
def ReadError.isLimit (e : ReadError) : Bool :=
  match e.lack with
  | .digits .. => true
  | _ => false

/-- The wording of a read error. -/
def ReadError.message (e : ReadError) : String :=
  if e.isLimit then e.lack.message
  else s!"{e.lack.message}: line {e.place.line} column {e.place.column} (char {e.offset})"

/-- A fault as an error of the whole text. -/
def Stuck.toError (text : List Char) (s : Stuck) : ReadError :=
  let offset := text.length - s.rest.length
  { lack := s.lack, offset, place := .after (text.take offset) }

/-- The value of a text that is one value and white space. -/
def readText (limit : Nat) (text : List Char) : Except Stuck Json :=
  match text with
  | '\ufeff' :: _ => .error ⟨.byteOrderMark, text⟩
  | _ => do
    let (j, rest) ← readValue limit (2 * text.length + 2) (skipGap text)
    match skipGap rest with
    | [] => return j
    | rest => throw ⟨.extraData, rest⟩

/-- The value that a text writes, if none of its integers has more digits than the limit. -/
def parseWithin (limit : Nat) (text : List Char) : Except ReadError Json :=
  (readText limit text).mapError (·.toError text)

end Liveness.Json
