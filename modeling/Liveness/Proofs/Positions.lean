/-
Liveness/Proofs/Positions.lean

Lines and columns are coordinates.  A position of a text is a line of it with a
column up to one past the end of that line, and it stands for an offset: what the
lines before it take, with their newlines, and the columns before it.

`position?` finds the one position that stands for an offset.  It reads the text
from its start, so the argument goes by the first character: a position of the rest
is, seen from before that character, a position of the whole text and stands for one
offset more (`Position.Stands.behind`).  In any list of lines, positions that come
one after another stand for growing offsets (`Position.offset_lt_offset`), so no
offset has two positions.

The same position is found by a search: its line is one more than the newlines
before the offset, and its column counts from the last of them (`position?_eq_search`).
-/
import Liveness.Text.Position
import Mathlib.Data.List.Basic
import Mathlib.Data.List.Induction

namespace Liveness.Text

/-! ### Coordinates -/

/-- The lines of a text, without their newlines. -/
def lines (cs : List Char) : List (List Char) :=
  cs.splitOn '\n'

/-- The offset at which the line after the first `i` begins: each of these takes its length and a
newline. -/
def lineStart (ls : List (List Char)) (i : Nat) : Nat :=
  (ls.take i).flatten.length + i

namespace Position

/-- A place in some lines: one of them, and a column up to one past its end. -/
structure In (p : Position) (ls : List (List Char)) : Prop where
  line_pos : 1 ≤ p.line
  column_pos : 1 ≤ p.column
  column_le : ∃ l, ls[p.line - 1]? = some l ∧ p.column ≤ l.length + 1

instance (p : Position) (ls : List (List Char)) : Decidable (p.In ls) :=
  decidable_of_iff (1 ≤ p.line ∧ 1 ≤ p.column ∧ ∃ l ∈ ls[p.line - 1]?, p.column ≤ l.length + 1)
    ⟨fun h => ⟨h.1, h.2.1, h.2.2⟩, fun h => ⟨h.1, h.2, h.3⟩⟩

/-- The offset that a position stands for in some lines. -/
def offset (p : Position) (ls : List (List Char)) : Nat :=
  lineStart ls (p.line - 1) + (p.column - 1)

/-- The order of positions: by line, and on one line by column. -/
def Before (p q : Position) : Prop :=
  p.line < q.line ∨ p.line = q.line ∧ p.column < q.column

instance (p q : Position) : Decidable (p.Before q) :=
  inferInstanceAs (Decidable (_ ∨ _))

end Position

/-! ### Where lines begin -/

theorem lineStart_cons (l : List Char) (ls : List (List Char)) (i : Nat) :
    lineStart (l :: ls) (i + 1) = l.length + 1 + lineStart ls i := by
  rw [lineStart, lineStart, List.take_succ_cons, List.flatten_cons, List.length_append]
  omega

theorem lineStart_succ {ls : List (List Char)} {i : Nat} {l : List Char} (h : ls[i]? = some l) :
    lineStart ls (i + 1) = lineStart ls i + l.length + 1 := by
  rw [lineStart, lineStart, List.take_add_one, h, Option.toList_some, List.flatten_append,
    List.flatten_singleton, List.length_append]
  omega

theorem lineStart_mono (ls : List (List Char)) {i j : Nat} (h : i ≤ j) :
    lineStart ls i ≤ lineStart ls j := by
  induction h with
  | refl => exact Nat.le_refl _
  | @step j _ ih =>
    refine Nat.le_trans ih ?_
    rw [lineStart, lineStart, List.take_add_one, List.flatten_append, List.length_append]
    omega

theorem lines_newline (cs : List Char) : lines ('\n' :: cs) = [] :: lines cs := by
  rw [lines, List.splitOn_cons_eq_if_modifyHead]
  rfl

/-- A character that ends no line goes in front of the first line. -/
theorem exists_lines_cons {c : Char} (hc : c ≠ '\n') (cs : List Char) :
    ∃ l ls, lines cs = l :: ls ∧ lines (c :: cs) = (c :: l) :: ls := by
  obtain ⟨l, ls, hls⟩ := List.exists_cons_of_ne_nil (List.splitOn_ne_nil '\n' cs)
  refine ⟨l, ls, hls, ?_⟩
  rw [lines, List.splitOn_cons_eq_if_modifyHead, if_neg (by simpa using hc), hls,
    List.modifyHead_cons]

/-- The lines take up the whole text, and a newline that is not there after the last of them. -/
theorem lineStart_lines (cs : List Char) :
    lineStart (lines cs) (lines cs).length = cs.length + 1 := by
  induction cs with
  | nil => rfl
  | cons c cs ih =>
    by_cases hc : c = '\n'
    · rw [hc, lines_newline, List.length_cons, lineStart_cons, ih, List.length_nil,
        List.length_cons]
      omega
    · obtain ⟨l, ls, hls, hcons⟩ := exists_lines_cons hc cs
      rw [hls, List.length_cons, lineStart_cons] at ih
      rw [hcons, List.length_cons, lineStart_cons, List.length_cons, List.length_cons]
      omega

namespace Position

/-! ### The order of positions -/

section Order

variable {p q : Position} {ls : List (List Char)}

/-- The offset of a position lies before the next line. -/
theorem In.offset_lt (hp : p.In ls) : p.offset ls < lineStart ls p.line := by
  obtain ⟨l, hl, hcolumn⟩ := hp.column_le
  have hnext := lineStart_succ hl
  rw [Nat.sub_add_cancel hp.line_pos] at hnext
  rw [offset, hnext]
  have := hp.column_pos
  omega

/-- Positions that come one after another stand for growing offsets. -/
theorem offset_lt_offset (hp : p.In ls) (h : p.Before q) : p.offset ls < q.offset ls := by
  rcases h with hline | ⟨hline, hcolumn⟩
  · -- the whole line of `p` lies between them
    have hstart : lineStart ls p.line ≤ lineStart ls (q.line - 1) := lineStart_mono ls (by omega)
    calc p.offset ls < lineStart ls p.line := hp.offset_lt
      _ ≤ lineStart ls (q.line - 1) := hstart
      _ ≤ q.offset ls := Nat.le_add_right _ _
  · rw [offset, offset, hline]
    have := hp.column_pos
    omega

theorem before_trichotomy (p q : Position) : p.Before q ∨ p = q ∨ q.Before p := by
  obtain ⟨line, column⟩ := p
  obtain ⟨line', column'⟩ := q
  simp only [Before, mk.injEq]
  omega

/-- An offset has one position. -/
theorem eq_of_offset_eq (hp : p.In ls) (hq : q.In ls) (h : p.offset ls = q.offset ls) : p = q := by
  rcases before_trichotomy p q with hpq | heq | hqp
  · exact absurd h (Nat.ne_of_lt (offset_lt_offset hp hpq))
  · exact heq
  · exact absurd h.symm (Nat.ne_of_lt (offset_lt_offset hq hqp))

theorem offset_lt_offset_iff (hp : p.In ls) (hq : q.In ls) :
    p.offset ls < q.offset ls ↔ p.Before q := by
  refine ⟨fun h => ?_, offset_lt_offset hp⟩
  rcases before_trichotomy p q with hpq | rfl | hqp
  · exact hpq
  · exact absurd h (Nat.lt_irrefl _)
  · exact absurd h (Nat.lt_asymm (offset_lt_offset hq hqp))

/-- No place in the lines of a text lies beyond its end. -/
theorem In.offset_le {cs : List Char} (hp : p.In (lines cs)) : p.offset (lines cs) ≤ cs.length := by
  obtain ⟨l, hl, -⟩ := hp.column_le
  obtain ⟨hline, -⟩ := List.getElem?_eq_some_iff.mp hl
  have hend : lineStart (lines cs) p.line ≤ lineStart (lines cs) (lines cs).length :=
    lineStart_mono _ (by omega)
  have := hp.offset_lt
  rw [lineStart_lines] at hend
  omega

end Order

/-! ### Reading from the start -/

/-- A position, seen from before one more character. -/
def behind (p : Position) (c : Char) : Position :=
  if c = '\n' then ⟨p.line + 1, p.column⟩
  else if p.line = 1 then ⟨1, p.column + 1⟩
  else p

theorem line_pos_advance {p : Position} (h : 1 ≤ p.line) (c : Char) : 1 ≤ (p.advance c).line := by
  rw [advance]
  split
  · exact Nat.le_add_left 1 p.line
  · exact h

/-- It does not matter which of two characters is read first, the one in front or the next one. -/
theorem advance_behind {p : Position} (h : 1 ≤ p.line) (c d : Char) :
    (p.behind c).advance d = (p.advance d).behind c := by
  obtain ⟨line, column⟩ := p
  -- a new line is never the first
  have hline : line ≠ 0 := Nat.one_le_iff_ne_zero.mp h
  by_cases hc : c = '\n' <;> by_cases hd : d = '\n' <;> by_cases hone : line = 1 <;>
    simp [behind, advance, hc, hd, hone, hline]

theorem foldl_advance_behind {p : Position} (h : 1 ≤ p.line) (c : Char) (cs : List Char) :
    cs.foldl advance (p.behind c) = (cs.foldl advance p).behind c := by
  induction cs generalizing p with
  | nil => rfl
  | cons d cs ih =>
    rw [List.foldl_cons, List.foldl_cons, advance_behind h, ih (line_pos_advance h d)]

theorem after_cons (c : Char) (cs : List Char) : after (c :: cs) = (after cs).behind c := by
  have hfirst : advance ⟨1, 1⟩ c = behind ⟨1, 1⟩ c := by
    by_cases hc : c = '\n' <;> simp [advance, behind, hc]
  rw [after, List.foldl_cons, hfirst]
  exact foldl_advance_behind (Nat.le_refl 1) c cs

/-- A position is one of a text, and stands for an offset there. -/
structure Stands (p : Position) (cs : List Char) (n : Nat) : Prop where
  isIn : p.In (lines cs)
  offset_eq : p.offset (lines cs) = n

/-- A text starts in the first column of its first line. -/
theorem stands_start (cs : List Char) : Stands ⟨1, 1⟩ cs 0 := by
  obtain ⟨l, ls, hls⟩ := List.exists_cons_of_ne_nil (List.splitOn_ne_nil '\n' cs)
  refine ⟨⟨Nat.le_refl 1, Nat.le_refl 1, l, ?_, Nat.le_add_left 1 _⟩, rfl⟩
  rw [lines, hls]
  rfl

/-- With one more character in front, a position of the text stands for one offset more. -/
theorem Stands.behind {p : Position} {cs : List Char} {n : Nat} (h : p.Stands cs n) (c : Char) :
    (p.behind c).Stands (c :: cs) (n + 1) := by
  obtain ⟨⟨hline, hcolumn, l, hl, hle⟩, rfl⟩ := h
  obtain ⟨line, column⟩ := p
  obtain ⟨i, rfl⟩ : ∃ i, line = i + 1 := ⟨line - 1, (Nat.sub_add_cancel hline).symm⟩
  rw [Position.behind]
  by_cases hc : c = '\n'
  · -- an empty line comes in front of all others
    rw [if_pos hc, hc]
    refine ⟨⟨Nat.le_add_left 1 _, hcolumn, l, ?_, hle⟩, ?_⟩
    · rw [lines_newline]
      exact hl
    · show lineStart (lines ('\n' :: cs)) (i + 1) + (column - 1) =
        lineStart (lines cs) i + (column - 1) + 1
      rw [lines_newline, lineStart_cons, List.length_nil]
      omega
  · obtain ⟨first, rest, hlines, hcons⟩ := exists_lines_cons hc cs
    rw [if_neg hc]
    rw [hlines] at hl ⊢
    cases i with
    | zero =>
      -- the first line is longer, and the position moves to the right
      obtain rfl : first = l := Option.some.inj hl
      rw [if_pos rfl]
      refine ⟨⟨Nat.le_refl 1, Nat.le_add_left 1 _, c :: first, ?_, Nat.succ_le_succ hle⟩, ?_⟩
      · rw [hcons]
        rfl
      · show 0 + (column + 1 - 1) = 0 + (column - 1) + 1
        have : 1 ≤ column := hcolumn
        omega
    | succ i =>
      -- the first line is longer, and the position stands in a later one
      rw [if_neg (by simp)]
      refine ⟨⟨hline, hcolumn, l, ?_, hle⟩, ?_⟩
      · rw [hcons]
        exact hl
      · show lineStart (lines (c :: cs)) (i + 1) + (column - 1) =
          lineStart (first :: rest) (i + 1) + (column - 1) + 1
        rw [hcons, lineStart_cons, lineStart_cons, List.length_cons]
        omega

/-- What is read up to an offset ends at a position that stands for this offset. -/
theorem stands_after {cs : List Char} {n : Nat} (h : n ≤ cs.length) :
    (after (cs.take n)).Stands cs n := by
  induction cs generalizing n with
  | nil =>
    obtain rfl : n = 0 := Nat.le_zero.mp h
    exact stands_start []
  | cons c cs ih =>
    cases n with
    | zero => exact stands_start (c :: cs)
    | succ n =>
      rw [List.take_succ_cons, after_cons]
      exact (ih (Nat.le_of_succ_le_succ h)).behind c

end Position

/-! ### Searching for the last newline -/

/-- The index of the last newline. -/
def lastNewline? (cs : List Char) : Option Nat :=
  (cs.reverse.idxOf? '\n').map (cs.length - 1 - ·)

/-- Where the last line begins: after the last newline, or at the start if there is none. -/
def lastLineStart (cs : List Char) : Nat :=
  (lastNewline? cs).elim 0 (· + 1)

theorem lastLineStart_append_newline (cs : List Char) :
    lastLineStart (cs ++ ['\n']) = cs.length + 1 := by
  simp [lastLineStart, lastNewline?, List.idxOf?_cons]

theorem lastLineStart_append {c : Char} (hc : c ≠ '\n') (cs : List Char) :
    lastLineStart (cs ++ [c]) = lastLineStart cs := by
  have hindex : lastNewline? (cs ++ [c]) = lastNewline? cs := by
    rw [lastNewline?, lastNewline?, List.reverse_concat, List.idxOf?_cons,
      if_neg (by simpa using hc), Option.map_map, List.length_append]
    refine congrArg (Option.map · _) (funext fun i => ?_)
    show cs.length + 1 - 1 - (i + 1) = cs.length - 1 - i
    omega
  rw [lastLineStart, hindex, lastLineStart]

theorem lastLineStart_le (cs : List Char) : lastLineStart cs ≤ cs.length := by
  induction cs using List.reverseRecOn with
  | nil => exact Nat.le_refl 0
  | append_singleton cs c ih =>
    rw [List.length_append, List.length_singleton]
    by_cases hc : c = '\n'
    · rw [hc]
      exact Nat.le_of_eq (lastLineStart_append_newline cs)
    · rw [lastLineStart_append hc]
      exact Nat.le_succ_of_le ih

/-- Reading a text counts its newlines, and the characters after the last of them. -/
theorem Position.after_eq_search (cs : List Char) :
    after cs = ⟨cs.count '\n' + 1, cs.length - lastLineStart cs + 1⟩ := by
  induction cs using List.reverseRecOn with
  | nil => rfl
  | append_singleton cs c ih =>
    have hstep : after (cs ++ [c]) = (after cs).advance c := List.foldl_concat ..
    rw [hstep, ih, advance, List.count_append, List.length_append, List.length_singleton]
    by_cases hc : c = '\n'
    · rw [if_pos (by simpa using hc), hc, lastLineStart_append_newline, List.count_singleton_self,
        Nat.sub_self]
    · have hle := lastLineStart_le cs
      rw [if_neg (by simpa using hc), lastLineStart_append hc, List.count_singleton,
        if_neg (by simpa using hc), Nat.succ_sub hle]

/-! ### Positions of offsets -/

/-- The position of an offset by search: newlines are counted up to the offset, and the column is
counted from the last of them. -/
theorem position?_eq_search {source : String} {offset : Nat} (h : offset ≤ source.length) :
    position? source offset =
      some ⟨(source.toList.take offset).count '\n' + 1,
        offset - lastLineStart (source.toList.take offset) + 1⟩ := by
  have hlength : (source.toList.take offset).length = offset := by
    rw [List.length_take, String.length_toList]
    exact Nat.min_eq_left h
  rw [position?, if_pos ⟨Int.natCast_nonneg offset, h⟩, Int.toNat_natCast,
    Position.after_eq_search, hlength]

/-- The position of an offset is the place that stands for it. -/
theorem position?_eq_some_iff {source : String} {offset : Int} {p : Position} :
    position? source offset = some p ↔
      p.In (lines source.toList) ∧ (p.offset (lines source.toList) : Int) = offset := by
  rw [position?]
  constructor
  · intro h
    split at h
    next hle =>
      obtain rfl := Option.some.inj h
      have hstands : (Position.after _).Stands source.toList offset.toNat :=
        Position.stands_after hle.2
      have hoffset := hstands.offset_eq
      exact ⟨hstands.isIn, by omega⟩
    next => cases h
  · rintro ⟨hin, rfl⟩
    have hle : p.offset (lines source.toList) ≤ source.length := hin.offset_le
    rw [if_pos ⟨by omega, by omega⟩, Int.toNat_natCast]
    -- the position that is found stands for the same offset, and there is only one such place
    obtain ⟨hin', hoffset⟩ := Position.stands_after hle
    exact congrArg some (Position.eq_of_offset_eq hin' hin hoffset)

theorem isSome_position?_iff {source : String} {offset : Int} :
    (position? source offset).isSome ↔ 0 ≤ offset ∧ offset ≤ source.length := by
  rw [position?]
  split
  next h => exact iff_of_true rfl ⟨h.1, by omega⟩
  next h => exact iff_of_false (by simp) fun h' => h ⟨h'.1, by omega⟩

/-- **Lines and columns are exact coordinates.**  An offset has a position exactly if it lies in the
text or right after it.  The position of an offset is the place in the lines of the text that stands
for this offset: the lines before it with their newlines, and the columns before it, add up to the
offset.  Offsets have the order of their positions, so two of them never share one, and every place
in the lines is the position of an offset. -/
theorem positions_exact (source : String) :
    (∀ offset, (position? source offset).isSome ↔ 0 ≤ offset ∧ offset ≤ source.length) ∧
    (∀ offset p, position? source offset = some p ↔
      p.In (lines source.toList) ∧ (p.offset (lines source.toList) : Int) = offset) ∧
    (∀ m n p q, position? source m = some p → position? source n = some q →
      (m < n ↔ p.Before q) ∧ (p = q → m = n)) ∧
    ∀ p : Position, p.In (lines source.toList) → ∃ offset, position? source offset = some p := by
  refine ⟨fun _ => isSome_position?_iff, fun _ _ => position?_eq_some_iff, ?_, ?_⟩
  · intro m n p q hp hq
    obtain ⟨hpin, rfl⟩ := position?_eq_some_iff.mp hp
    obtain ⟨hqin, rfl⟩ := position?_eq_some_iff.mp hq
    refine ⟨?_, fun h => by rw [h]⟩
    rw [← Position.offset_lt_offset_iff hpin hqin]
    omega
  · intro p hp
    exact ⟨_, position?_eq_some_iff.mpr ⟨hp, rfl⟩⟩

/-- A text with an empty line and a newline at its end: the newlines end their lines, the empty
line and what follows the last newline have one column each, and there is nothing after that. -/
theorem positions_of_gapped_text :
    position? "a\n\nbc\n" 1 = some ⟨1, 2⟩ ∧ position? "a\n\nbc\n" 2 = some ⟨2, 1⟩ ∧
    position? "a\n\nbc\n" 5 = some ⟨3, 3⟩ ∧ position? "a\n\nbc\n" 6 = some ⟨4, 1⟩ ∧
    ¬ (position? "a\n\nbc\n" 7).isSome ∧ ¬ (position? "a\n\nbc\n" (-1)).isSome ∧
    ∀ p, position? "a\n\nbc\n" 6 = some p → Position.Before ⟨3, 3⟩ p := by
  obtain ⟨hsome, hplace, horder, -⟩ := positions_exact "a\n\nbc\n"
  have hfive := (hplace 5 ⟨3, 3⟩).mpr (by decide)
  refine ⟨(hplace _ _).mpr (by decide), (hplace _ _).mpr (by decide), hfive,
    (hplace _ _).mpr (by decide), ?_, ?_, ?_⟩
  · rw [hsome]
    decide
  · rw [hsome]
    decide
  · intro p hp
    exact (horder 5 6 _ p hfive hp).1.mp (by decide)

end Liveness.Text
