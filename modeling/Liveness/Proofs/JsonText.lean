/-
Liveness/Proofs/JsonText.lean

Reading back what was written.  The reader takes the text of a value and whatever
comes after it, and gives back the value and the rest (`Json.readable`), as long
as the rest does not go on with a number (`Json.EndsNumber`): that `12` is followed
by something else than a digit is the only thing that ends it.

`Json.isRegular` leaves three sorts of values out: fractions, whose numerals are a
matter of their own, integers with more digits than the reader takes, and objects with
a key that is there twice, of which the reader keeps one.

Strings are compared by their UTF-16 units.  One character has one unit or, above
U+FFFF, a pair of surrogates (`Json.charUnits`); the writer escapes units and the
reader joins them, which gives the characters back since no character is itself a
surrogate (`Json.joinUnits_flatMap`).
-/
import Liveness.Json.Reader
import Liveness.Json.Writer
import Liveness.Text.Digit
import Mathlib.Tactic.SplitIfs

namespace Liveness

/-! ### Hexadecimal digits -/

namespace Text

/-- A wider numeral has one more digit at its end. -/
theorem hexDigits_succ {width : Nat} (hw : 0 < width) (n : Nat) :
    hexDigits (width + 1) n = hexDigits width (n / 16) ++ [Nat.digitChar (n % 16)] := by
  rcases Nat.lt_or_ge n 16 with hn | hn
  · have hzero : n / 16 = 0 := Nat.div_eq_of_lt hn
    obtain ⟨w, rfl⟩ := Nat.exists_eq_add_of_lt hw
    rw [hexDigits, hexDigits, hzero, Nat.mod_eq_of_lt hn, Nat.toDigits_of_lt_base hn]
    simp [Nat.toDigits_of_lt_base, Nat.digitChar, List.replicate_succ']
  · rw [hexDigits, hexDigits, Nat.toDigits_of_base_le (by decide) hn]
    simp

theorem hexDigits_one {n : Nat} (hn : n < 16) : hexDigits 1 n = [Nat.digitChar n] := by
  rw [hexDigits, Nat.toDigits_of_lt_base hn]
  rfl

end Text

namespace Json

theorem hexValue?_digitChar : ∀ d < 16, hexValue? (Nat.digitChar d) = some d := by
  decide

/-- The four digits of a unit. -/
theorem hexDigits_four {n : Nat} (hn : n < 0x10000) :
    Text.hexDigits 4 n = [Nat.digitChar (n / 16 / 16 / 16), Nat.digitChar (n / 16 / 16 % 16),
      Nat.digitChar (n / 16 % 16), Nat.digitChar (n % 16)] := by
  rw [Text.hexDigits_succ (by decide), Text.hexDigits_succ (by decide),
    Text.hexDigits_succ (by decide), Text.hexDigits_one (by omega)]
  rfl

theorem hexUnit?_four {n : Nat} (hn : n < 0x10000) :
    hexUnit? (Nat.digitChar (n / 16 / 16 / 16)) (Nat.digitChar (n / 16 / 16 % 16))
      (Nat.digitChar (n / 16 % 16)) (Nat.digitChar (n % 16)) = some n := by
  rw [hexUnit?, hexValue?_digitChar _ (by omega), hexValue?_digitChar _ (by omega),
    hexValue?_digitChar _ (by omega), hexValue?_digitChar _ (by omega)]
  refine congrArg some ?_
  omega

/-! ### Characters and units -/

/-- The UTF-16 units of a character. -/
def charUnits (c : Char) : List Nat :=
  if c.toNat < 0x10000 then [c.toNat]
  else [0xD800 + (c.toNat - 0x10000) / 0x400, 0xDC00 + (c.toNat - 0x10000) % 0x400]

theorem joinUnits_cons {n : Nat} (hn : isHighUnit n = false) (rest : List Nat) :
    joinUnits (n :: rest) = unitChar n :: joinUnits rest := by
  cases rest with
  | nil => rfl
  | cons m rest => rw [joinUnits, hn, Bool.false_and, if_neg Bool.false_ne_true]

/-- A character is a scalar value: no surrogate, and of 21 bits. -/
theorem isScalar (c : Char) :
    isHighUnit c.toNat = false ∧ isLowUnit c.toNat = false ∧ c.toNat < 0x110000 := by
  have hvalid : c.toNat.isValidChar := c.valid
  simp only [isHighUnit, isLowUnit, Bool.and_eq_false_iff, decide_eq_false_iff_not]
  rcases hvalid with h | ⟨h, h'⟩ <;> omega

theorem charUnits_lt (c : Char) : ∀ n ∈ charUnits c, n < 0x10000 := by
  obtain ⟨-, -, hlarge⟩ := isScalar c
  rw [charUnits]
  split
  · simpa
  · simp only [List.mem_cons, List.not_mem_nil, or_false]
    omega

/-- Characters are read back from their units. -/
theorem joinUnits_flatMap (cs : List Char) : joinUnits (cs.flatMap charUnits) = cs := by
  induction cs with
  | nil => rfl
  | cons c cs ih =>
    obtain ⟨hhigh, hlow, hlarge⟩ := isScalar c
    rw [List.flatMap_cons, charUnits]
    split
    · -- one unit, which no other can complete to a pair
      rw [List.singleton_append, joinUnits_cons hhigh, ih, unitChar, hhigh, hlow,
        Bool.or_false, if_neg Bool.false_ne_true, Char.ofNat_toNat]
    · next hc =>
      have hpair : isHighUnit (0xD800 + (c.toNat - 0x10000) / 0x400) &&
          isLowUnit (0xDC00 + (c.toNat - 0x10000) % 0x400) := by
        simp only [isHighUnit, isLowUnit, Bool.and_eq_true, decide_eq_true_eq]
        omega
      have hback : 0x10000 + (0xD800 + (c.toNat - 0x10000) / 0x400 - 0xD800) * 0x400 +
          (0xDC00 + (c.toNat - 0x10000) % 0x400 - 0xDC00) = c.toNat := by
        omega
      rw [List.cons_append, List.singleton_append, joinUnits, if_pos hpair, hback, ih,
        Char.ofNat_toNat]

/-! ### Strings -/

section Strings

variable {start : List Char} {done : List Nat} {rest : List Char}

theorem stringUnits_plain {c : Char} (hquote : c ≠ '"') (hslash : c ≠ '\\') (hc : 0x20 ≤ c.toNat) :
    stringUnits start done (c :: rest) = stringUnits start (c.toNat :: done) rest := by
  rw [stringUnits, if_neg (Nat.not_lt.mpr hc)]
  · exact hquote
  · exact fun h _ => hslash h
  · exact fun _ h _ => hslash h
  · exact fun _ _ h _ => hslash h

theorem stringUnits_short {c e : Char} (hc : shortEscape? c = some e) :
    stringUnits start done ('\\' :: c :: rest) = stringUnits start (e.toNat :: done) rest := by
  have hu : c ≠ 'u' := by
    rintro rfl
    cases hc
  rw [stringUnits, hc]
  exact hu

theorem stringUnits_unicodeEscape {n : Nat} (hn : n < 0x10000) (hrest : rest ≠ []) :
    stringUnits start done (unicodeEscape n ++ rest) = stringUnits start (n :: done) rest := by
  -- the reader looks at one more character after the digits
  obtain ⟨more, rest, rfl⟩ := List.exists_cons_of_ne_nil hrest
  rw [unicodeEscape, hexDigits_four hn]
  simp only [List.cons_append, List.nil_append]
  rw [stringUnits, hexUnit?_four hn]

theorem stringUnits_escapes {units : List Nat} (hunits : ∀ n ∈ units, n < 0x10000)
    (hrest : rest ≠ []) :
    stringUnits start done (units.flatMap unicodeEscape ++ rest) =
      stringUnits start (units.reverse ++ done) rest := by
  induction units generalizing done with
  | nil => rfl
  | cons n units ih =>
    rw [List.flatMap_cons, List.append_assoc,
      stringUnits_unicodeEscape (hunits n List.mem_cons_self) (by simp [hrest]),
      ih fun m hm => hunits m (List.mem_cons_of_mem n hm)]
    simp

/-- The ways in which a character is written. -/
inductive CharText (c : Char) : List Char → Prop
  | short {e : Char} : shortEscape? e = some c → charUnits c = [c.toNat] → CharText c ['\\', e]
  | plain : c ≠ '"' → c ≠ '\\' → 0x20 ≤ c.toNat → c.toNat < 0x7F → CharText c [c]
  | escaped : CharText c ((charUnits c).flatMap unicodeEscape)

theorem charText_writeChar (c : Char) : CharText c (writeChar c) := by
  have hescaped : CharText c ((charUnits c).flatMap unicodeEscape) := .escaped
  rw [charUnits] at hescaped
  rw [writeChar]
  split_ifs with hquote hslash hn hr ht hf hb hplain hunit
  case pos | pos | pos | pos | pos | pos | pos =>
    cases eq_of_beq ‹_›
    exact .short rfl rfl
  · rw [Bool.and_eq_true, decide_eq_true_eq, decide_eq_true_eq] at hplain
    exact .plain (fun h => hquote (beq_iff_eq.mpr h)) (fun h => hslash (beq_iff_eq.mpr h))
      hplain.1 hplain.2
  · rw [if_pos hunit, List.flatMap_singleton] at hescaped
    exact hescaped
  · rw [if_neg hunit, List.flatMap_cons, List.flatMap_singleton] at hescaped
    exact hescaped

/-- The units of a character are read from its text. -/
theorem stringUnits_writeChar (c : Char) (hrest : rest ≠ []) :
    stringUnits start done (writeChar c ++ rest) =
      stringUnits start ((charUnits c).reverse ++ done) rest := by
  have htext := charText_writeChar c
  generalize writeChar c = text at htext
  cases htext with
  | short he hc =>
    rw [hc]
    exact stringUnits_short he
  | plain hquote hslash hlow hhigh =>
    rw [charUnits, if_pos (by omega)]
    exact stringUnits_plain hquote hslash hlow
  | escaped => exact stringUnits_escapes (charUnits_lt c) hrest

theorem stringUnits_flatMap (cs : List Char) :
    stringUnits start done (cs.flatMap writeChar ++ '"' :: rest) =
      .ok (done.reverse ++ cs.flatMap charUnits, rest) := by
  induction cs generalizing done with
  | nil => simp [stringUnits]
  | cons c cs ih =>
    rw [List.flatMap_cons, List.append_assoc, stringUnits_writeChar c (by simp), ih]
    simp

/-- A string is read back from its text. -/
theorem readString_flatMap (s : String) (rest : List Char) :
    readString (s.toList.flatMap writeChar ++ '"' :: rest) = .ok (s, rest) := by
  rw [readString, stringUnits_flatMap]
  show Except.ok (String.ofList (joinUnits (s.toList.flatMap charUnits)), rest) = .ok (s, rest)
  rw [joinUnits_flatMap, String.ofList_toList]

theorem writeString_append (s : String) (rest : List Char) :
    writeString s ++ rest = '"' :: (s.toList.flatMap writeChar ++ '"' :: rest) := by
  simp [writeString]

end Strings

/-! ### Integers -/

/-- What follows does not go on with a number. -/
def EndsNumber (rest : List Char) : Prop :=
  ∀ c ∈ rest.head?, c.isDigit = false ∧ c ≠ '.' ∧ c ≠ 'e' ∧ c ≠ 'E'

theorem endsNumber_cons {c : Char} {rest : List Char} (hdigit : c.isDigit = false)
    (hpoint : c ≠ '.') (he : c ≠ 'e' ∧ c ≠ 'E') : EndsNumber (c :: rest) := by
  rintro d ⟨⟩
  exact ⟨hdigit, hpoint, he⟩

section Integers

variable {limit : Nat} {rest : List Char}

theorem natOfDigits_toDigits (n : Nat) : natOfDigits (Nat.toDigits 10 n) = n := by
  have hcore := Nat.ofDigitChars_ten_toDigits (n := n)
  rw [Nat.ofDigitChars_eq_foldl] at hcore
  simpa only [natOfDigits, Nat.mul_comm 10] using hcore

theorem isDigit_of_mem {n : Nat} {c : Char} (hc : c ∈ Nat.toDigits 10 n) : c.isDigit = true :=
  Nat.isDigit_of_mem_toDigits (by decide) (by decide) hc

/-- A numeral starts with a zero only if it is one. -/
theorem head?_toDigits {n : Nat} (hn : n ≠ 0) : (Nat.toDigits 10 n).head? ≠ some '0' := by
  have hdigit : ∀ d < 10, d ≠ 0 → Nat.digitChar d ≠ '0' := by decide
  induction n using Nat.strongRecOn with
  | ind n ih =>
    rcases Nat.lt_or_ge n 10 with hlt | hge
    · rw [Nat.toDigits_of_lt_base hlt]
      exact fun h => hdigit n hlt hn (Option.some.inj h)
    · -- the last digit goes away, the first one stays
      rw [Nat.toDigits_of_base_le (by decide) hge, List.head?_append, Option.or_of_isSome]
      · exact ih (n / 10) (by omega) (by omega)
      · exact List.isSome_head?.mpr Nat.toDigits_ne_nil

/-- The digits of a number are the whole part of what is read from them. -/
theorem wholeDigits?_toDigits (n : Nat) (hrest : EndsNumber rest) :
    wholeDigits? (Nat.toDigits 10 n ++ rest) = some (Nat.toDigits 10 n, rest) := by
  have hstop : rest.takeWhile Char.isDigit = [] ∧ rest.dropWhile Char.isDigit = rest := by
    cases rest with
    | nil => exact ⟨rfl, rfl⟩
    | cons c more => simp [(hrest c rfl).1]
  by_cases hn : n = 0
  · subst hn
    rfl
  obtain ⟨c, digits, hdigits⟩ := List.exists_cons_of_ne_nil (Nat.toDigits_ne_nil (n := n) (b := 10))
  have hall : ∀ d ∈ c :: digits, d.isDigit = true := fun d hd => isDigit_of_mem (hdigits ▸ hd)
  have hlater : ∀ d ∈ digits, d.isDigit = true := fun d hd => hall d (List.mem_cons_of_mem c hd)
  have hzero : c ≠ '0' := by
    rintro rfl
    exact head?_toDigits hn (by rw [hdigits]; rfl)
  rw [hdigits, List.cons_append, wholeDigits?, if_pos (hall c List.mem_cons_self),
    List.takeWhile_append_of_pos hlater, List.dropWhile_append_of_pos hlater, hstop.1, hstop.2,
    List.append_nil]
  exact hzero

theorem fraction_of_endsNumber (hrest : EndsNumber rest) : fraction rest = ([], rest) := by
  rw [fraction.eq_def]
  split
  · exact absurd rfl (hrest '.' rfl).2.1
  · rfl

theorem exponent?_of_endsNumber (hrest : EndsNumber rest) : exponent? rest = none := by
  rw [exponent?.eq_def]
  split
  · exact absurd rfl (hrest 'e' rfl).2.2.1
  · exact absurd rfl (hrest 'E' rfl).2.2.2
  · rfl

theorem unsigned?_toDigits (negative : Bool) (n : Nat) (hrest : EndsNumber rest) :
    unsigned? negative (Nat.toDigits 10 n ++ rest) =
      some (.int (if negative then -(n : Int) else n), rest) := by
  simp only [unsigned?, wholeDigits?_toDigits n hrest, Option.bind_eq_bind, Option.bind_some,
    fraction_of_endsNumber hrest, exponent?_of_endsNumber hrest, natOfDigits_toDigits]
  rfl

/-- The text of an integer: its digits, with a sign if it is negative. -/
theorem toList_toString (n : Int) :
    (toString n).toList =
      if 0 ≤ n then Nat.toDigits 10 n.toNat else '-' :: Nat.toDigits 10 (-n).toNat := by
  rw [Int.toString_eq_repr, Int.repr_eq_if]
  split
  · rw [Nat.repr_eq_ofList_toDigits, String.toList_ofList]
  · simp [Nat.repr_eq_ofList_toDigits]

/-- The text of an integer has room for its digits. -/
theorem digitCount_le_length (n : Int) : Text.digitCount n ≤ (toString n).length := by
  rw [← String.length_toList, toList_toString, Text.digitCount]
  split
  · have habs : n.natAbs = n.toNat := by omega
    exact Nat.le_of_eq (congrArg (fun m => (Nat.toDigits 10 m).length) habs)
  · have habs : n.natAbs = (-n).toNat := by omega
    rw [habs]
    exact Nat.le_succ _

/-- The text of an integer starts with a digit, or with a sign and a digit. -/
theorem toString_starts (n : Int) :
    ∃ c more, c.isDigit = true ∧
      ((toString n).toList = c :: more ∧ 0 ≤ n ∨
        (toString n).toList = '-' :: c :: more ∧ n < 0) := by
  have hstarts : ∀ m : Nat, ∃ c more, c.isDigit = true ∧ Nat.toDigits 10 m = c :: more := by
    intro m
    obtain ⟨c, more, hm⟩ := List.exists_cons_of_ne_nil (Nat.toDigits_ne_nil (n := m) (b := 10))
    exact ⟨c, more, isDigit_of_mem (hm ▸ List.mem_cons_self), hm⟩
  rw [toList_toString]
  split
  · next hn =>
    obtain ⟨c, more, hc, hm⟩ := hstarts n.toNat
    exact ⟨c, more, hc, Or.inl ⟨hm, hn⟩⟩
  · next hn =>
    obtain ⟨c, more, hc, hm⟩ := hstarts (-n).toNat
    exact ⟨c, more, hc, Or.inr ⟨by rw [hm], by omega⟩⟩

theorem ne_of_isDigit {c d : Char} (hc : c.isDigit = true) (hd : d.isDigit = false) : c ≠ d := by
  rintro rfl
  rw [hc] at hd
  cases hd

theorem wholeCount_toDigits (n : Nat) (hrest : EndsNumber rest) :
    wholeCount (Nat.toDigits 10 n ++ rest) = (Nat.toDigits 10 n).length := by
  rw [wholeCount, wholeDigits?_toDigits n hrest]
  rfl

/-- An integer is read back from its text, if it is not too long. -/
theorem readNumber_toString {n : Int} (hn : Text.digitCount n ≤ limit) (hrest : EndsNumber rest) :
    readNumber limit ((toString n).toList ++ rest) = .ok (.int n, rest) := by
  obtain ⟨c, more, hc, ⟨htext, hsign⟩ | ⟨htext, hsign⟩⟩ := toString_starts n
  · have hread := unsigned?_toDigits false n.toNat hrest
    have hcount := wholeCount_toDigits n.toNat hrest
    have htoNat : (n.toNat : Int) = n := Int.toNat_of_nonneg hsign
    have hminus : c ≠ '-' := ne_of_isDigit hc rfl
    have habs : n.natAbs = n.toNat := by omega
    rw [Text.digitCount, habs, ← hcount] at hn
    rw [toList_toString, if_pos hsign] at htext ⊢
    rw [if_neg Bool.false_ne_true, htoNat] at hread
    rw [htext, List.cons_append] at hn hread ⊢
    simp [readNumber, hminus, hread, hn]
  · have hneg : -((-n).toNat : Int) = n := by omega
    have habs : n.natAbs = (-n).toNat := by omega
    rw [Text.digitCount, habs, ← wholeCount_toDigits _ hrest] at hn
    rw [toList_toString, if_neg (by omega)]
    simp only [List.cons_append, readNumber, unsigned?_toDigits true _ hrest, if_true, hneg,
      if_pos hn]

/-- No word starts with a digit, or with a sign and a digit. -/
theorem afterWord?_of_digit {c : Char} (hc : c.isDigit = true) {word : String × Json}
    (hword : word ∈ words) (more : List Char) :
    afterWord? word.1 (c :: more) = none ∧ afterWord? word.1 ('-' :: c :: more) = none := by
  have hne : ∀ d : Char, d.isDigit = false → (d == c) = false := fun d hd =>
    beq_eq_false_iff_ne.mpr (ne_of_isDigit hc hd).symm
  simp only [words, List.mem_cons, List.not_mem_nil, or_false] at hword
  rcases hword with rfl | rfl | rfl | rfl | rfl | rfl <;>
    simp [afterWord?, List.isPrefixOf, hne]

theorem readPlain_toString {n : Int} (hn : Text.digitCount n ≤ limit) (hrest : EndsNumber rest) :
    readPlain limit ((toString n).toList ++ rest) = .ok (.int n, rest) := by
  rw [readPlain]
  split
  · next found hfound =>
    obtain ⟨⟨word, j⟩, hword, hafter⟩ := List.exists_of_findSome?_eq_some hfound
    obtain ⟨c, more, hc, ⟨htext, -⟩ | ⟨htext, -⟩⟩ := toString_starts n
    · dsimp only at hafter
      rw [htext, List.cons_append, (afterWord?_of_digit hc hword _).1] at hafter
      cases hafter
    · dsimp only at hafter
      rw [htext, List.cons_append, List.cons_append, (afterWord?_of_digit hc hword _).2] at hafter
      cases hafter
  · exact readNumber_toString hn hrest

end Integers

/-! ### Gaps -/

theorem skipGap_newLine (depth : Nat) (rest : List Char) :
    skipGap (newLine depth ++ rest) = skipGap rest := by
  refine List.dropWhile_append_of_pos fun c hc => ?_
  rcases List.mem_cons.mp hc with rfl | hc
  · rfl
  · rw [List.eq_of_mem_replicate hc]
    rfl

theorem skipGap_cons {c : Char} (hc : isGap c = false) (rest : List Char) :
    skipGap (c :: rest) = c :: rest := by
  rw [skipGap, List.dropWhile_cons_of_neg]
  simp [hc]

theorem endsNumber_comma {rest : List Char} : EndsNumber (',' :: rest) :=
  endsNumber_cons (by decide) (by decide) (by decide)

theorem endsNumber_newLine (depth : Nat) (rest : List Char) : EndsNumber (newLine depth ++ rest) :=
  endsNumber_cons (by decide) (by decide) (by decide)

/-! ### Values -/

mutual
/-- Whether a value can be read back from its text under a limit on digits: no fraction is in it, no
integer that is too long, and no object with a key that is there twice. -/
def isRegular (limit : Nat) : Json → Bool
  | .float _ => false
  | .int n => Text.digitCount n ≤ limit
  | .arr items => isRegularItems limit items
  | .obj members => decide (members.map (·.1)).Nodup && isRegularMembers limit members
  | _ => true
/-- The same for some items. -/
def isRegularItems (limit : Nat) : List Json → Bool
  | [] => true
  | j :: rest => j.isRegular limit && isRegularItems limit rest
/-- The same for the values of some members. -/
def isRegularMembers (limit : Nat) : List (String × Json) → Bool
  | [] => true
  | (_, j) :: rest => j.isRegular limit && isRegularMembers limit rest
end

theorem isRegularItems_eq (limit : Nat) (items : List Json) :
    isRegularItems limit items = items.all (·.isRegular limit) := by
  induction items with
  | nil => rfl
  | cons j rest ih => rw [isRegularItems, ih, List.all_cons]

theorem isRegularMembers_eq (limit : Nat) (members : List (String × Json)) :
    isRegularMembers limit members = members.all (·.2.isRegular limit) := by
  induction members with
  | nil => rfl
  | cons m rest ih => rw [isRegularMembers, ih, List.all_cons]

/-- The text of a value at a depth of nesting starts with no gap and not with the end of an array,
and the value is read back from it, whatever comes next. -/
structure Readable (limit depth : Nat) (j : Json) : Prop where
  starts : ∃ c more, j.write depth = c :: more ∧ isGap c = false ∧ c ≠ ']'
  read : ∀ {bound : Nat} {rest : List Char}, 2 * (j.write depth).length ≤ bound →
    EndsNumber rest → readValue limit (bound + 1) (j.write depth ++ rest) = .ok (j, rest)

theorem Readable.skipGap {limit depth : Nat} {j : Json} (h : Readable limit depth j)
    (rest : List Char) :
    skipGap (j.write depth ++ rest) = j.write depth ++ rest := by
  obtain ⟨c, more, htext, hc, -⟩ := h.starts
  rw [htext, List.cons_append, skipGap_cons hc]

section Values

variable {limit depth bound : Nat} {rest : List Char}

theorem readValue_plain {c : Char} {cs : List Char} (bound : Nat)
    (hc : c ≠ '"' ∧ c ≠ '\x7b' ∧ c ≠ '[') :
    readValue limit (bound + 1) (c :: cs) = readPlain limit (c :: cs) := by
  obtain ⟨hquote, hbrace, hbracket⟩ := hc
  rw [readValue]
  all_goals simp [hquote, hbrace, hbracket]

/-- A word or a number is read back if it starts with no gap and like no other value. -/
theorem readable_plain {j : Json} {c : Char} {more : List Char} (htext : j.write depth = c :: more)
    (hgap : isGap c = false) (hend : c ≠ ']') (hother : c ≠ '"' ∧ c ≠ '\x7b' ∧ c ≠ '[')
    (hread : ∀ {rest}, EndsNumber rest → readPlain limit (j.write depth ++ rest) = .ok (j, rest)) :
    Readable limit depth j where
  starts := ⟨c, more, htext, hgap, hend⟩
  read {bound rest} _ hrest := by
    have hplain := hread hrest
    rw [htext, List.cons_append] at hplain ⊢
    rw [readValue_plain _ hother, hplain]

theorem readable_null : Readable limit depth .null :=
  readable_plain rfl (by decide) (by decide) (by decide) fun _ => rfl

theorem readable_bool (b : Bool) : Readable limit depth (.bool b) := by
  cases b with
  | false => exact readable_plain rfl (by decide) (by decide) (by decide) fun _ => rfl
  | true => exact readable_plain rfl (by decide) (by decide) (by decide) fun _ => rfl

theorem readable_int {n : Int} (hn : Text.digitCount n ≤ limit) :
    Readable limit depth (.int n) := by
  obtain ⟨c, more, hc, ⟨htext, -⟩ | ⟨htext, -⟩⟩ := toString_starts n
  · have hne : ∀ d : Char, d.isDigit = false → c ≠ d := fun d hd => ne_of_isDigit hc hd
    have hgap : isGap c = false := by simp [isGap, hne]
    exact readable_plain htext hgap (hne _ rfl) ⟨hne _ rfl, hne _ rfl, hne _ rfl⟩
      (readPlain_toString hn)
  · exact readable_plain htext (by decide) (by decide) (by decide) (readPlain_toString hn)

theorem readable_str (s : String) : Readable limit depth (.str s) where
  starts := ⟨'"', _, rfl, by decide, by decide⟩
  read _ _ := by
    rw [write, writeString_append, readValue, readString_flatMap]
    rfl

/-! ### Arrays -/

theorem readItems_last {j : Json} {text : List Char} (hj : Readable limit depth j)
    (hbound : 2 * (j.write depth).length ≤ bound) (htext : EndsNumber text)
    (hend : skipGap text = ']' :: rest) (done : List Json) :
    readItems limit (bound + 2) done (j.write depth ++ text) =
      .ok (.arr (j :: done).reverse, rest) := by
  rw [readItems, hj.read hbound htext]
  simp only [bind, Except.bind, hend]
  rfl

theorem readItems_next {j : Json} {text : List Char} (hj : Readable limit depth j)
    (hbound : 2 * (j.write depth).length ≤ bound) (htext : EndsNumber text)
    (hnext : skipGap text = ',' :: rest) (done : List Json) :
    readItems limit (bound + 2) done (j.write depth ++ text) =
      readItems limit (bound + 1) (j :: done) (skipGap rest) := by
  rw [readItems, hj.read hbound htext]
  simp only [bind, Except.bind, hnext]

/-- The items of an array are read back from their text.  The induction is on those that follow the
next one; `outer` is the depth of the array itself. -/
theorem readItems_write {j : Json} {items : List Json} (h : ∀ i ∈ j :: items, Readable limit depth i)
    (hbound : 2 * ((j.write depth).length + (writeItems depth items).length) ≤ bound)
    (done : List Json) (outer : Nat) :
    readItems limit (bound + 2) done
        (j.write depth ++ (writeItems depth items ++ (newLine outer ++ ']' :: rest))) =
      .ok (.arr (done.reverse ++ j :: items), rest) := by
  have hj : Readable limit depth j := h j List.mem_cons_self
  induction items generalizing j bound done with
  | nil =>
    have hend : skipGap (newLine outer ++ ']' :: rest) = ']' :: rest := by
      rw [skipGap_newLine, skipGap_cons rfl]
    rw [writeItems, List.nil_append, readItems_last hj (by omega) (endsNumber_newLine _ _) hend,
      List.reverse_cons]
  | cons i items ih =>
    have hlater : ∀ k ∈ i :: items, Readable limit depth k := fun k hk =>
      h k (List.mem_cons_of_mem j hk)
    have hi : Readable limit depth i := hlater i List.mem_cons_self
    simp only [writeItems, List.cons_append, List.append_assoc, List.length_cons,
      List.length_append] at hbound ⊢
    -- the comma and the new line are what the next item is shorter by
    obtain ⟨bound, rfl⟩ : ∃ b, bound = b + 1 := ⟨bound - 1, by omega⟩
    rw [readItems_next hj (by omega) endsNumber_comma (skipGap_cons rfl _), skipGap_newLine,
      hi.skipGap, ih hlater (by omega) _ hi]
    simp

theorem readValue_items {c : Char} {cs more : List Char} (hgap : skipGap cs = c :: more)
    (hc : c ≠ ']') :
    readValue limit (bound + 1) ('[' :: cs) = readItems limit bound [] (c :: more) := by
  rw [readValue, hgap]
  simp [hc]

theorem readable_arr {items : List Json} (h : ∀ i ∈ items, Readable limit (depth + 1) i) :
    Readable limit depth (.arr items) where
  starts := by cases items <;> exact ⟨'[', _, rfl, by decide, by decide⟩
  read {bound rest} hbound _ := by
    cases items with
    | nil => rfl
    | cons j items =>
      have hj : Readable limit (depth + 1) j := h j List.mem_cons_self
      obtain ⟨c, more, htext, -, hc⟩ := hj.starts
      simp only [write, List.cons_append, List.append_assoc, List.length_cons, List.length_append,
        List.nil_append] at hbound ⊢
      have hgap : ∀ text, skipGap (newLine (depth + 1) ++ (j.write (depth + 1) ++ text)) =
          c :: (more ++ text) := fun text => by
        rw [skipGap_newLine, hj.skipGap, htext, List.cons_append]
      -- the brackets are what the items are shorter by
      obtain ⟨bound, rfl⟩ : ∃ b, bound = b + 2 := ⟨bound - 2, by omega⟩
      rw [readValue_items (hgap _) hc, ← List.cons_append, ← htext, readItems_write h (by omega)]
      rfl

/-! ### Objects -/

theorem putMember_of_new {key : String} {members : List (String × Json)}
    (h : key ∉ members.map (·.1)) (j : Json) : putMember key j members = members ++ [(key, j)] := by
  induction members with
  | nil => rfl
  | cons m members ih =>
    obtain ⟨k, v⟩ := m
    rw [List.map_cons, List.mem_cons, not_or] at h
    rw [putMember, if_neg (Ne.symm h.1), ih h.2, List.cons_append]

theorem not_mem_of_nodup_append {key : String} {j : Json} {done members : List (String × Json)}
    (h : ((done ++ (key, j) :: members).map (·.1)).Nodup) : key ∉ done.map (·.1) := by
  intro hmem
  rw [List.map_append, List.nodup_append] at h
  exact h.2.2 key hmem key List.mem_cons_self rfl

section Steps

variable {j : Json} {key : String} {text : List Char} {done : List (String × Json)}

theorem readMembers_last (hj : Readable limit depth j) (hbound : 2 * (j.write depth).length ≤ bound)
    (htext : EndsNumber text) (hend : skipGap text = '\x7d' :: rest)
    (hkey : key ∉ done.map (·.1)) :
    readMembers limit (bound + 2) done (writeString key ++ ':' :: ' ' :: (j.write depth ++ text)) =
      .ok (.obj (done ++ [(key, j)]), rest) := by
  have hgap : skipGap (' ' :: (j.write depth ++ text)) = j.write depth ++ text := hj.skipGap text
  rw [writeString_append, readMembers, readString_flatMap]
  simp only [bind, Except.bind, skipGap_cons (show isGap ':' = false from rfl), hgap,
    hj.read hbound htext, hend, putMember_of_new hkey]
  rfl

theorem readMembers_next (hj : Readable limit depth j) (hbound : 2 * (j.write depth).length ≤ bound)
    (htext : EndsNumber text) (hnext : skipGap text = ',' :: rest)
    (hkey : key ∉ done.map (·.1)) :
    readMembers limit (bound + 2) done (writeString key ++ ':' :: ' ' :: (j.write depth ++ text)) =
      readMembers limit (bound + 1) (done ++ [(key, j)]) (skipGap rest) := by
  have hgap : skipGap (' ' :: (j.write depth ++ text)) = j.write depth ++ text := hj.skipGap text
  rw [writeString_append, readMembers, readString_flatMap]
  simp only [bind, Except.bind, skipGap_cons (show isGap ':' = false from rfl), hgap,
    hj.read hbound htext, hnext, putMember_of_new hkey]

end Steps

/-- The members of an object are read back from their text, if no key is there twice. -/
theorem readMembers_write {key : String} {j : Json} {members done : List (String × Json)}
    (h : ∀ m ∈ (key, j) :: members, Readable limit depth m.2)
    (hkeys : ((done ++ (key, j) :: members).map (·.1)).Nodup)
    (hbound : 2 * ((j.write depth).length + (writeMembers depth members).length) ≤ bound)
    (outer : Nat) :
    readMembers limit (bound + 2) done (writeString key ++ ':' :: ' ' ::
        (j.write depth ++ (writeMembers depth members ++ (newLine outer ++ '\x7d' :: rest)))) =
      .ok (.obj (done ++ (key, j) :: members), rest) := by
  have hj : Readable limit depth j := h (key, j) List.mem_cons_self
  have hkey : key ∉ done.map (·.1) := not_mem_of_nodup_append hkeys
  induction members generalizing key j bound done with
  | nil =>
    have hend : skipGap (newLine outer ++ '\x7d' :: rest) = '\x7d' :: rest := by
      rw [skipGap_newLine, skipGap_cons rfl]
    rw [writeMembers, List.nil_append,
      readMembers_last hj (by omega) (endsNumber_newLine _ _) hend hkey]
  | cons m members ih =>
    obtain ⟨k, i⟩ := m
    have hlater : ∀ n ∈ (k, i) :: members, Readable limit depth n.2 := fun n hn =>
      h n (List.mem_cons_of_mem _ hn)
    have hquote : ∀ text, skipGap (writeString k ++ text) = writeString k ++ text := fun text => by
      rw [writeString_append, skipGap_cons rfl]
    have hkeys' : (((done ++ [(key, j)]) ++ (k, i) :: members).map (·.1)).Nodup := by
      rw [List.append_assoc]
      exact hkeys
    simp only [writeMembers, List.cons_append, List.append_assoc, List.length_cons, List.nil_append,
      List.length_append] at hbound ⊢
    obtain ⟨bound, rfl⟩ : ∃ b, bound = b + 1 := ⟨bound - 1, by omega⟩
    rw [readMembers_next hj (by omega) endsNumber_comma (skipGap_cons rfl _) hkey,
      skipGap_newLine, hquote, ih hlater hkeys' (by omega) (hlater (k, i) List.mem_cons_self)
        (not_mem_of_nodup_append hkeys')]
    simp

theorem readValue_members {cs more : List Char} (hgap : skipGap cs = '"' :: more) :
    readValue limit (bound + 1) ('\x7b' :: cs) = readMembers limit bound [] ('"' :: more) := by
  rw [readValue, hgap]
  simp

theorem readable_obj {members : List (String × Json)} (hkeys : (members.map (·.1)).Nodup)
    (h : ∀ m ∈ members, Readable limit (depth + 1) m.2) : Readable limit depth (.obj members) where
  starts := by cases members <;> exact ⟨'\x7b', _, rfl, by decide, by decide⟩
  read {bound rest} hbound _ := by
    cases members with
    | nil => rfl
    | cons m members =>
      obtain ⟨key, j⟩ := m
      simp only [write, List.cons_append, List.append_assoc, List.length_cons, List.length_append,
        List.nil_append] at hbound ⊢
      have hgap : ∀ text, skipGap (newLine (depth + 1) ++ (writeString key ++ text)) =
          '"' :: (key.toList.flatMap writeChar ++ '"' :: text) := fun text => by
        rw [skipGap_newLine, writeString_append, skipGap_cons rfl]
      obtain ⟨bound, rfl⟩ : ∃ b, bound = b + 2 := ⟨bound - 2, by omega⟩
      rw [readValue_members (hgap _), ← writeString_append, readMembers_write h hkeys (by omega)]
      rfl

end Values

/-! ### All values -/

mutual
/-- Every regular value is read back from its text. -/
theorem readable (limit depth : Nat) : (j : Json) → j.isRegular limit = true →
    Readable limit depth j
  | .null, _ => readable_null
  | .bool b, _ => readable_bool b
  | .int _, h => readable_int (of_decide_eq_true h)
  | .str s, _ => readable_str s
  | .arr items, h => readable_arr (readable_items limit (depth + 1) items h)
  | .obj members, h => by
    rw [isRegular, Bool.and_eq_true, decide_eq_true_eq] at h
    exact readable_obj h.1 (readable_members limit (depth + 1) members h.2)
theorem readable_items (limit depth : Nat) : (items : List Json) →
    isRegularItems limit items = true →
    ∀ i ∈ items, Readable limit depth i
  | [], _ => fun i hi => nomatch hi
  | j :: rest, h => by
    rw [isRegularItems, Bool.and_eq_true] at h
    intro i hi
    rcases List.mem_cons.mp hi with hi | hi
    · rw [hi]
      exact readable limit depth j h.1
    · exact readable_items limit depth rest h.2 i hi
theorem readable_members (limit depth : Nat) : (members : List (String × Json)) →
    isRegularMembers limit members = true → ∀ m ∈ members, Readable limit depth m.2
  | [], _ => fun m hm => nomatch hm
  | (key, j) :: rest, h => by
    rw [isRegularMembers, Bool.and_eq_true] at h
    intro m hm
    rcases List.mem_cons.mp hm with hm | hm
    · rw [hm]
      exact readable limit depth j h.1
    · exact readable_members limit depth rest h.2 m hm
end

/-! ### Legible text -/

/-- Printable ASCII and new lines. -/
def isLegible (c : Char) : Bool :=
  c == '\n' || 0x20 ≤ c.toNat && c.toNat < 0x7F

theorem legible_digitChar : ∀ d < 16, isLegible (Nat.digitChar d) = true := by
  decide

theorem legible_unicodeEscape {n : Nat} (hn : n < 0x10000) :
    (unicodeEscape n).all isLegible = true := by
  rw [unicodeEscape, hexDigits_four hn]
  simp only [List.all_cons, List.all_nil, Bool.and_eq_true, and_true]
  exact ⟨by decide, by decide, legible_digitChar _ (by omega), legible_digitChar _ (by omega),
    legible_digitChar _ (by omega), legible_digitChar _ (by omega)⟩

theorem legible_of_shortEscape? {c e : Char} (h : shortEscape? e = some c) :
    isLegible e = true := by
  rw [shortEscape?.eq_def] at h
  split at h
  case h_9 => cases h
  all_goals decide

theorem legible_writeChar (c : Char) : (writeChar c).all isLegible = true := by
  have htext := charText_writeChar c
  generalize writeChar c = text at htext
  cases htext with
  | short he _ =>
    rw [List.all_cons, List.all_cons, legible_of_shortEscape? he]
    decide
  | plain _ _ hlow hhigh => simp [isLegible, hlow, hhigh]
  | escaped =>
    rw [List.all_flatMap, List.all_eq_true]
    exact fun n hn => legible_unicodeEscape (charUnits_lt c n hn)

theorem legible_writeString (s : String) : (writeString s).all isLegible = true := by
  have hchars : (s.toList.flatMap writeChar).all isLegible = true := by
    rw [List.all_flatMap, List.all_eq_true]
    exact fun c _ => legible_writeChar c
  rw [writeString, List.cons_append, List.all_cons, List.all_append, hchars]
  decide

theorem legible_newLine (depth : Nat) : (newLine depth).all isLegible = true := by
  rw [newLine, List.all_cons, List.all_replicate]
  simp [isLegible]

theorem legible_toString (n : Int) : (toString n).toList.all isLegible = true := by
  have hdigits : ∀ m, (Nat.toDigits 10 m).all isLegible = true := by
    intro m
    rw [List.all_eq_true]
    intro c hc
    have hdigit : c.isDigit = true := isDigit_of_mem hc
    rw [Char.isDigit, Bool.and_eq_true, decide_eq_true_eq, decide_eq_true_eq] at hdigit
    have hlow : 48 ≤ c.toNat := UInt32.le_iff_toNat_le.mp hdigit.1
    have hhigh : c.toNat ≤ 57 := UInt32.le_iff_toNat_le.mp hdigit.2
    simp only [isLegible, Bool.or_eq_true, Bool.and_eq_true, decide_eq_true_eq]
    omega
  rw [toList_toString]
  split
  · exact hdigits _
  · rw [List.all_cons, hdigits]
    decide

mutual
/-- Regular values are written in printable ASCII and new lines. -/
theorem legible_write (limit depth : Nat) : (j : Json) → j.isRegular limit = true →
    (j.write depth).all isLegible = true
  | .null, _ => rfl
  | .bool true, _ => rfl
  | .bool false, _ => rfl
  | .int n, _ => legible_toString n
  | .str s, _ => legible_writeString s
  | .arr [], _ => rfl
  | .arr (j :: rest), h => by
    rw [isRegular, isRegularItems, Bool.and_eq_true] at h
    simp only [write, List.all_cons, List.all_append, List.all_nil, legible_newLine,
      legible_write limit (depth + 1) j h.1, legible_writeItems limit (depth + 1) rest h.2]
    rfl
  | .obj [], _ => rfl
  | .obj ((key, j) :: rest), h => by
    simp only [isRegular, isRegularMembers, Bool.and_eq_true] at h
    simp only [write, List.all_cons, List.all_append, List.all_nil, legible_newLine,
      legible_writeString, legible_write limit (depth + 1) j h.2.1,
      legible_writeMembers limit (depth + 1) rest h.2.2]
    rfl
theorem legible_writeItems (limit depth : Nat) : (items : List Json) →
    isRegularItems limit items = true →
    (writeItems depth items).all isLegible = true
  | [], _ => rfl
  | j :: rest, h => by
    rw [isRegularItems, Bool.and_eq_true] at h
    simp only [writeItems, List.all_cons, List.all_append, legible_newLine,
      legible_write limit depth j h.1, legible_writeItems limit depth rest h.2]
    rfl
theorem legible_writeMembers (limit depth : Nat) : (members : List (String × Json)) →
    isRegularMembers limit members = true → (writeMembers depth members).all isLegible = true
  | [], _ => rfl
  | (key, j) :: rest, h => by
    rw [isRegularMembers, Bool.and_eq_true] at h
    simp only [writeMembers, List.all_cons, List.all_append, List.all_nil, legible_newLine,
      legible_writeString, legible_write limit depth j h.1,
      legible_writeMembers limit depth rest h.2]
    rfl
end

/-! ### Whole texts -/

/-- A regular value is read back from its text, with any gap after it. -/
theorem parseWithin_pretty {limit : Nat} {j : Json} (h : j.isRegular limit = true)
    {gap : List Char} (hgap : skipGap gap = []) (hends : EndsNumber gap) :
    parseWithin limit (j.pretty.toList ++ gap) = .ok j := by
  have hj : Readable limit 0 j := readable limit 0 j h
  obtain ⟨c, more, htext, -⟩ := hj.starts
  -- a byte order mark in front would be refused
  have hmark : c ≠ '\ufeff' := by
    have hlegible := legible_write limit 0 j h
    rw [htext, List.all_cons, Bool.and_eq_true] at hlegible
    rintro rfl
    cases hlegible.1
  have hread : readValue limit (2 * (j.write 0 ++ gap).length + 2) (skipGap (j.write 0 ++ gap)) =
      .ok (j, gap) := by
    rw [hj.skipGap]
    refine hj.read ?_ hends
    rw [List.length_append]
    omega
  have hwhole : readText limit (j.write 0 ++ gap) = .ok j := by
    rw [htext, List.cons_append] at hread ⊢
    rw [readText, hread]
    · simp only [bind, Except.bind, hgap]
      rfl
    · simp [hmark]
  rw [pretty, String.toList_ofList, parseWithin, hwhole]
  rfl

end Json

end Liveness
