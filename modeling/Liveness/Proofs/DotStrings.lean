/-
Liveness/Proofs/DotStrings.lean

The strings of the DOT report.  Quoting doubles every backslash and then puts a
backslash before every quote, so no text ends its string early, not even one that
ends in backslashes: what is quoted is read back, and reading stops right after it
(`readQuoted_dotQuote`).

`quotedTexts` goes through a whole document and lists its strings.  A piece of text
shows some strings if they are read from it whatever comes after (`Shows`).  Pieces
without a quote show none, and what pieces show adds up, so the strings of the report
are found line by line: the name of the graph, that of the font, and what the nodes say.
-/
import Liveness.Proofs.DotLabels
import Liveness.Proofs.JsonText
import Mathlib.Data.List.Forall2

namespace Liveness

open Report

/-! ### Two passes -/

/-- A text with another in place of each occurrence of a character. -/
def replaced (c : Char) (image cs : List Char) : List Char :=
  cs.flatMap fun d => if d = c then image else [d]

/-- Backslashes are doubled first, and then quotes are escaped. -/
theorem flatMap_dotChar (cs : List Char) :
    cs.flatMap dotChar = replaced '"' ['\\', '"'] (replaced '\\' ['\\', '\\'] cs) := by
  rw [replaced, replaced, List.flatMap_assoc]
  congr 1
  funext c
  by_cases hslash : c = '\\'
  · rw [hslash]
    rfl
  · by_cases hquote : c = '"'
    · rw [hquote]
      rfl
    · simp [dotChar, hslash, hquote]

/-- In the other order the backslash before a quote is doubled too, and the quote ends the text. -/
example :
    readToQuote labelEscape?
      (replaced '\\' ['\\', '\\'] (replaced '"' ['\\', '"'] ['a', '"', 'b']) ++ ['"']) =
    some (['a', '\\'], ['b', '"']) := by
  decide

/-! ### The strings of a document -/

section Strings

variable {escape? : Char → Option Char}

/-- Reading a string takes at least the quote that ends it. -/
theorem length_readToQuote {cs text after : List Char}
    (h : readToQuote escape? cs = some (text, after)) : after.length < cs.length := by
  fun_induction readToQuote escape? cs generalizing text with
  | case1 => cases h
  | case2 c rest ih =>
    obtain ⟨⟨text', after'⟩, hrest, heq⟩ := Option.map_eq_some_iff.mp h
    obtain rfl : after' = after := congrArg Prod.snd heq
    have := ih hrest
    simp only [List.length_cons]
    omega
  | case3 rest c =>
    obtain ⟨-, rfl⟩ := Prod.mk.inj (Option.some.inj h)
    exact Nat.lt_succ_self _
  | case4 c rest _ _ ih =>
    obtain ⟨⟨text', after'⟩, hrest, heq⟩ := Option.map_eq_some_iff.mp h
    obtain rfl : after' = after := congrArg Prod.snd heq
    exact Nat.lt_succ_of_lt (ih hrest)

variable (escape?) in
/-- The strings of a document one after another, if each of them ends. -/
def quotedTexts : List Char → Option (List (List Char))
  | [] => some []
  | c :: rest =>
    if c = '"' then
      match h : readToQuote escape? rest with
      | none => none
      | some (text, after) =>
        have := length_readToQuote h
        (quotedTexts after).map (text :: ·)
    else quotedTexts rest
termination_by cs => cs.length

theorem quotedTexts_quote (rest : List Char) :
    quotedTexts escape? ('"' :: rest) =
      (readToQuote escape? rest).bind fun (text, after) =>
        (quotedTexts escape? after).map (text :: ·) := by
  rw [quotedTexts, if_pos rfl]
  split
  next h =>
    rw [h]
    rfl
  next text after h =>
    show (quotedTexts escape? after).map (text :: ·) = _
    rw [h]
    rfl

theorem quotedTexts_plain {c : Char} (hc : c ≠ '"') (rest : List Char) :
    quotedTexts escape? (c :: rest) = quotedTexts escape? rest := by
  rw [quotedTexts, if_neg hc]

/-- A piece of a document shows some strings: they are read from it, whatever comes after. -/
def Shows (escape? : Char → Option Char) (piece : String) (texts : List (List Char)) : Prop :=
  ∀ rest, quotedTexts escape? (piece.toList ++ rest) = (quotedTexts escape? rest).map (texts ++ ·)

theorem shows_of_plain {piece : String} (h : '"' ∉ piece.toList) : Shows escape? piece [] := by
  intro rest
  have hid : (quotedTexts escape? rest).map ([] ++ ·) = quotedTexts escape? rest := Option.map_id'
  rw [hid]
  generalize piece.toList = cs at h
  induction cs with
  | nil => rfl
  | cons c cs ih =>
    obtain ⟨hc, hcs⟩ := not_or.mp (List.mem_cons.not.mp h)
    rw [List.cons_append, quotedTexts_plain (Ne.symm hc), ih hcs]

theorem Shows.append {piece piece' : String} {texts texts' : List (List Char)}
    (h : Shows escape? piece texts) (h' : Shows escape? piece' texts') :
    Shows escape? (piece ++ piece') (texts ++ texts') := by
  intro rest
  rw [String.toList_append, List.append_assoc, h, h', Option.map_map]
  congr 1
  funext more
  exact (List.append_assoc texts texts' more).symm

/-- Lines between which nothing is quoted show their strings one after another. -/
theorem shows_intercalate (separator : String) (hsep : '"' ∉ separator.toList)
    {pieces : List String} {texts : List (List (List Char))}
    (h : List.Forall₂ (Shows escape?) pieces texts) :
    Shows escape? (String.intercalate separator pieces) texts.flatten := by
  induction h with
  | nil => exact shows_of_plain (by simp)
  | @cons piece shown pieces texts hpiece htail ih =>
    cases htail with
    | nil => simpa using hpiece
    | @cons piece' shown' pieces texts hpiece' htail =>
      have hshows := (hpiece.append (shows_of_plain hsep)).append ih
      rw [String.intercalate_cons_cons, List.flatten_cons]
      rwa [List.append_nil] at hshows

variable (hslash : escape? '\\' = some '\\') (hquote : escape? '"' = some '"')

include hslash hquote

theorem shows_dotQuote (s : String) : Shows escape? (dotQuote s) [s.toList] := by
  intro rest
  have htext : (dotQuote s).toList ++ rest = '"' :: (s.toList.flatMap dotChar ++ '"' :: rest) := by
    simp [dotQuote]
  rw [htext, quotedTexts_quote, readToQuote_flatMap hslash hquote]
  rfl

/-! ### The lines of the report -/

omit hslash hquote in
theorem shows_toString (n : Int) : Shows escape? (toString n) [] := by
  have hdigits : ∀ m, '"' ∉ Nat.toDigits 10 m := fun m hm =>
    Json.ne_of_isDigit (Json.isDigit_of_mem hm) (by decide) rfl
  refine shows_of_plain ?_
  rw [Json.toList_toString]
  split
  · exact hdigits _
  · simpa using hdigits _

omit hslash hquote in
theorem shows_edgeLine (flow : Flow) : Shows escape? (edgeLine flow) [] := by
  have hsource : Shows escape? ("  n" ++ toString flow.1) [] :=
    (shows_of_plain (by decide)).append (shows_toString flow.1)
  have htarget : Shows escape? (" -> n" ++ toString flow.2 ++ ";") [] :=
    ((shows_of_plain (by decide)).append (shows_toString flow.2)).append
      (shows_of_plain (by decide))
  have hline := hsource.append htarget
  rwa [← String.append_assoc, ← String.append_assoc] at hline

omit hslash hquote in
/-- An attribute that may be there, with nothing quoted in it. -/
theorem forall₂_shows_optional (present : Bool) {text : String} (h : '"' ∉ text.toList) :
    List.Forall₂ (Shows escape?) (if present then [text] else [])
      (if present then [[]] else []) := by
  cases present with
  | false => exact .nil
  | true => exact .cons (shows_of_plain h) .nil

omit hslash hquote in
theorem flatten_optional (present : Bool) :
    (if present then [[]] else [] : List (List (List Char))).flatten = [] := by
  cases present <;> rfl

/-- A node shows one string, which is what it says. -/
theorem shows_nodeLine (a : Analysis) (label : Label) :
    Shows escape? (nodeLine a label) [(nodeText a label).toList] := by
  have hlabel : Shows escape? ("label=" ++ dotQuote (nodeText a label))
      [(nodeText a label).toList] :=
    (shows_of_plain (by decide)).append (shows_dotQuote hslash hquote _)
  have hattributes : List.Forall₂ (Shows escape?)
      (["label=" ++ dotQuote (nodeText a label)] ++
        (if hasDeadAssignment a label then ["color=red"] else []) ++
        (if a.graph.initial == some label then ["penwidth=2"] else [])) _ :=
    List.rel_append
      (List.rel_append (.cons hlabel .nil) (forall₂_shows_optional _ (by decide)))
      (forall₂_shows_optional _ (by decide))
  have hstart : Shows escape? ("  n" ++ toString label ++ " [") [] :=
    ((shows_of_plain (by decide)).append (shows_toString label)).append (shows_of_plain (by decide))
  have hend : Shows escape? "];" [] := shows_of_plain (by decide)
  have hline := (hstart.append (shows_intercalate ", " (by decide) hattributes)).append hend
  rw [List.flatten_append, List.flatten_append, flatten_optional, flatten_optional] at hline
  exact hline

/-- The strings of the report: the name of the graph, that of the font, and what each node says. -/
theorem quotedTexts_dot (a : Analysis) (name : String) :
    quotedTexts escape? (dot a name).toList =
      some (name.toList :: "monospace".toList ::
        a.graph.labels.map fun l => (nodeText a l).toList) := by
  have hname : Shows escape? ("digraph " ++ dotQuote name ++ " \x7b") [name.toList] :=
    ((shows_of_plain (by decide)).append (shows_dotQuote hslash hquote name)).append
      (shows_of_plain (by decide))
  have hfont : Shows escape? "  node [shape=box, fontname=\"monospace\"];"
      ["monospace".toList] := by
    have hquoted : "  node [shape=box, fontname=\"monospace\"];" =
        "  node [shape=box, fontname=" ++ dotQuote "monospace" ++ "];" := by decide
    rw [hquoted]
    exact ((shows_of_plain (by decide)).append (shows_dotQuote hslash hquote "monospace")).append
      (shows_of_plain (by decide))
  have hhead : List.Forall₂ (Shows escape?) ["digraph " ++ dotQuote name ++ " \x7b",
      "  node [shape=box, fontname=\"monospace\"];"] [[name.toList], ["monospace".toList]] :=
    .cons hname (.cons hfont .nil)
  have hnodes : List.Forall₂ (Shows escape?) (a.graph.labels.map (nodeLine a))
      (a.graph.labels.map fun l => [(nodeText a l).toList]) :=
    List.forall₂_map_left_iff.mpr (List.forall₂_map_right_iff.mpr
      (List.forall₂_same.mpr fun l _ => shows_nodeLine hslash hquote a l))
  have hedges : List.Forall₂ (Shows escape?) ((unique a.graph.flows).map edgeLine)
      ((unique a.graph.flows).map fun _ => []) :=
    List.forall₂_map_left_iff.mpr (List.forall₂_map_right_iff.mpr
      (List.forall₂_same.mpr fun flow _ => shows_edgeLine flow))
  have hend : List.Forall₂ (Shows escape?) ["\x7d"] [[]] :=
    .cons (shows_of_plain (by decide)) .nil
  have hlines := shows_intercalate "\n" (by decide)
    (List.rel_append (List.rel_append (List.rel_append hhead hnodes) hedges) hend)
  have hdot := hlines.append (shows_of_plain (by decide) : Shows escape? "\n" []) []
  have hsaid : (a.graph.labels.map fun l => [(nodeText a l).toList]).flatten =
      a.graph.labels.map fun l => (nodeText a l).toList := by
    rw [← List.flatMap_def, ← List.map_eq_flatMap]
  rw [List.append_nil] at hdot
  refine hdot.trans ?_
  simp [quotedTexts, hsaid]

end Strings

/-- **No text ends its string early.**  Take any reading of escapes by which an escaped backslash is
a backslash and an escaped quote is a quote.  A quoted text, in which backslashes were doubled and
then quotes escaped, is read as this text, up to just before what follows it; so different texts are
quoted differently, and no quoted text begins another one.  In the report of an analysis, whatever
the graph and the variables are called, the strings are the name of the graph, that of the font and
what the nodes say, and no others. -/
theorem Report.dotQuote_never_ends_early (escape? : Char → Option Char)
    (hslash : escape? '\\' = some '\\') (hquote : escape? '"' = some '"') :
    (∀ s : String, (dotQuote s).toList =
      '"' :: replaced '"' ['\\', '"'] (replaced '\\' ['\\', '\\'] s.toList) ++ ['"']) ∧
    (∀ (s : String) (rest : List Char),
      readQuoted escape? ((dotQuote s).toList ++ rest) = some (s.toList, rest)) ∧
    (∀ (s t : String) (rest rest' : List Char),
      (dotQuote s).toList ++ rest = (dotQuote t).toList ++ rest' → s = t ∧ rest = rest') ∧
    Function.Injective dotQuote ∧
    ∀ (a : Analysis) (name : String), quotedTexts escape? (dot a name).toList =
      some (name.toList :: "monospace".toList ::
        a.graph.labels.map fun l => (nodeText a l).toList) := by
  have hread := readQuoted_dotQuote hslash hquote
  have hsplit : ∀ (s t : String) (rest rest' : List Char),
      (dotQuote s).toList ++ rest = (dotQuote t).toList ++ rest' → s = t ∧ rest = rest' := by
    intro s t rest rest' h
    have hboth := (hread s rest).symm.trans
      ((congrArg (readQuoted escape?) h).trans (hread t rest'))
    obtain ⟨htext, hrest⟩ := Prod.mk.inj (Option.some.inj hboth)
    exact ⟨String.toList_inj.mp htext, hrest⟩
  refine ⟨fun s => ?_, hread, hsplit, fun s t h => ?_, quotedTexts_dot hslash hquote⟩
  · rw [← flatMap_dotChar, dotQuote, String.toList_ofList]
  · exact (hsplit s t [] [] (by rw [h])).1

/-- A text of backslashes and quotes, with more of them after it, and the graph of `misnamed`, whose
variable is a quote and a backslash, under a name that tries to close the string. -/
theorem misnamed_strings :
    readQuoted labelEscape? ((dotQuote "\\\"\\").toList ++ ['"', '\\', '"']) =
      some (['\\', '"', '\\'], ['"', '\\', '"']) ∧
    ∃ a, misnamed.analyze {} = .ok a ∧
      quotedTexts labelEscape? (dot a "\"];\\").toList =
        some [['"', ']', ';', '\\'], "monospace".toList,
          "0: ExpressionStatement\\nin  \x7b \"\\ \x7d\\nout \x7b \x7d".toList] := by
  obtain ⟨-, hread, -, -, hstrings⟩ :=
    Report.dotQuote_never_ends_early labelEscape? labelEscape?_slash labelEscape?_quote
  have hrun : (misnamed.analyze {}).toOption.any (fun a => a.graph.labels = [0] ∧ nodeText a 0 =
      "0: ExpressionStatement\\nin  \x7b \"\\ \x7d\\nout \x7b \x7d") = true := by
    decide +kernel
  obtain ⟨a, hrun, hlabels, htext⟩ := Program.exists_analysis hrun
  refine ⟨hread _ _, a, hrun, ?_⟩
  rw [hstrings, hlabels, List.map_singleton, htext]
  rfl

end Liveness
