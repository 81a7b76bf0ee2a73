/-
Liveness/Proofs/DotLabels.lean

Reading the DOT report back.  A quoted text runs from a quote to the next quote
that is not escaped.  Whatever characters a text has, what `dotQuote` writes is read
as that very text and nothing after it (`readQuoted_dotQuote`), under every
reading of escapes in which an escaped backslash is a backslash and an escaped
quote is a quote.

A node says three things, and their texts are joined by a backslash and the letter
`n`, which stands for a line break in a label.  The whole is quoted after that, and
quoting escapes this backslash like any other.  So the label of a node never reads
as three lines: it is one line, with a backslash and an `n` where the breaks should be.
-/
import Liveness.Proofs.DeadAssignments
import Liveness.Report.Dot

namespace Liveness

open Report

/-! ### Quoted texts -/

/-- What an escaped character stands for in a label. -/
def labelEscape? : Char → Option Char
  | '\\' => some '\\'
  | '"' => some '"'
  | 'n' => some '\n'
  | _ => none

theorem labelEscape?_slash : labelEscape? '\\' = some '\\' := rfl

theorem labelEscape?_quote : labelEscape? '"' = some '"' := rfl

/-- Read a text up to the quote that ends it, and what comes after that quote.  A backslash that
escapes nothing stands for itself. -/
def readToQuote (escape? : Char → Option Char) : List Char → Option (List Char × List Char)
  | [] => none
  | '\\' :: c :: rest =>
    (readToQuote escape? rest).map fun (text, after) =>
      ((match escape? c with
        | some d => [d]
        | none => ['\\', c]) ++ text, after)
  | c :: rest =>
    if c = '"' then some ([], rest)
    else (readToQuote escape? rest).map fun (text, after) => (c :: text, after)

/-- Read a quoted text, and what comes after it. -/
def readQuoted (escape? : Char → Option Char) : List Char → Option (List Char × List Char)
  | '"' :: rest => readToQuote escape? rest
  | _ => none

section Quoted

variable {escape? : Char → Option Char}

theorem readToQuote_escaped {c d : Char} (h : escape? c = some d) (rest : List Char) :
    readToQuote escape? ('\\' :: c :: rest) =
      (readToQuote escape? rest).map fun (text, after) => (d :: text, after) := by
  rw [readToQuote, h]
  rfl

theorem readToQuote_plain {c : Char} (hslash : c ≠ '\\') (hquote : c ≠ '"') (rest : List Char) :
    readToQuote escape? (c :: rest) =
      (readToQuote escape? rest).map fun (text, after) => (c :: text, after) := by
  rw [readToQuote.eq_def]
  split
  next h => cases h
  next h =>
    -- the pattern of an escape starts with a backslash
    simp only [List.cons.injEq] at h
    exact absurd h.1 hslash
  next h =>
    simp only [List.cons.injEq] at h
    obtain ⟨rfl, rfl⟩ := h
    rw [if_neg hquote]

variable (hslash : escape? '\\' = some '\\') (hquote : escape? '"' = some '"')

include hslash hquote

theorem readToQuote_dotChar (c : Char) (rest : List Char) :
    readToQuote escape? (dotChar c ++ rest) =
      (readToQuote escape? rest).map fun (text, after) => (c :: text, after) := by
  rw [dotChar]
  split
  next h =>
    rcases (Bool.or_eq_true _ _).mp h with h | h
    · obtain rfl := eq_of_beq h
      exact readToQuote_escaped hslash rest
    · obtain rfl := eq_of_beq h
      exact readToQuote_escaped hquote rest
  next h =>
    simp only [Bool.or_eq_true, beq_iff_eq, not_or] at h
    exact readToQuote_plain h.1 h.2 rest

theorem readToQuote_flatMap (text after : List Char) :
    readToQuote escape? (text.flatMap dotChar ++ '"' :: after) = some (text, after) := by
  induction text with
  | nil =>
    show readToQuote escape? ('"' :: after) = _
    simp [readToQuote]
  | cons c text ih =>
    rw [List.flatMap_cons, List.append_assoc, readToQuote_dotChar hslash hquote, ih]
    rfl

/-- A quoted text is read back, and reading stops right after it. -/
theorem readQuoted_dotQuote (s : String) (after : List Char) :
    readQuoted escape? ((dotQuote s).toList ++ after) = some (s.toList, after) := by
  have htext : (dotQuote s).toList ++ after = '"' :: (s.toList.flatMap dotChar ++ '"' :: after) := by
    simp [dotQuote]
  rw [htext, readQuoted]
  exact readToQuote_flatMap hslash hquote s.toList after

end Quoted

/-! ### Labels of nodes -/

/-- What a node should say, line by line. -/
def nodeLines (a : Analysis) (label : Label) : List String :=
  [s!"{label}: {pointKind a.program label}",
    "in  " ++ names (a.live.facts.entry.get label).toList,
    "out " ++ names (a.live.facts.exit.get label).toList]

/-- A line of the report is that of the node at a label, and its label attribute reads as a
text. -/
def LabelReads (line : String) (label : Label) (text : String) : Prop :=
  ∃ quoted after, line.toList = s!"  n{label} [label=".toList ++ quoted ∧
    readQuoted labelEscape? quoted = some (text.toList, after)

/-- A line has one label. -/
theorem LabelReads.unique {line : String} {label : Label} {text text' : String}
    (h : LabelReads line label text) (h' : LabelReads line label text') : text = text' := by
  obtain ⟨quoted, after, hline, hread⟩ := h
  obtain ⟨quoted', after', hline', hread'⟩ := h'
  obtain rfl : quoted = quoted' := List.append_cancel_left (hline.symm.trans hline')
  have htext := hread.symm.trans hread'
  simp only [Option.some.injEq, Prod.mk.injEq] at htext
  exact String.toList_inj.mp htext.1

theorem exists_intercalate_cons (separator first : String) (rest : List String) :
    ∃ more, String.intercalate separator (first :: rest) = first ++ more := by
  cases rest with
  | nil => exact ⟨"", by simp⟩
  | cons second rest =>
    exact ⟨separator ++ String.intercalate separator (second :: rest), by
      rw [String.intercalate_cons_cons, String.append_assoc]⟩

/-- The label is the first attribute of a node. -/
theorem exists_nodeLine (a : Analysis) (label : Label) :
    ∃ more, nodeLine a label =
      s!"  n{label} [" ++ ("label=" ++ dotQuote (nodeText a label) ++ more) ++ "];" := by
  unfold nodeLine
  dsimp only
  rw [List.append_assoc, List.singleton_append]
  obtain ⟨more, hmore⟩ := exists_intercalate_cons ", " ("label=" ++ dotQuote (nodeText a label)) _
  exact ⟨more, by rw [hmore]⟩

/-- The label of a node reads as the text that was quoted. -/
theorem labelReads_nodeLine (a : Analysis) (label : Label) :
    LabelReads (nodeLine a label) label (nodeText a label) := by
  obtain ⟨more, hline⟩ := exists_nodeLine a label
  have hread := readQuoted_dotQuote labelEscape?_slash labelEscape?_quote (nodeText a label)
    (more ++ "];").toList
  refine ⟨_, _, ?_, hread⟩
  rw [hline]
  show ("  n" ++ toString label ++ " [" ++ ("label=" ++ dotQuote (nodeText a label) ++ more) ++
    "];").toList = ("  n" ++ toString label ++ " [label=").toList ++ _
  simp [String.toList_append]

/-- The three lines are joined by a backslash and an `n`. -/
theorem nodeText_eq (a : Analysis) (label : Label) :
    nodeText a label = String.intercalate "\\n" (nodeLines a label) := by
  apply String.toList_inj.mp
  show (toString label ++ ": " ++ pointKind a.program label ++ "\\nin  " ++ names _ ++ "\\nout " ++
    names _).toList = (String.intercalate "\\n" [toString label ++ ": " ++ pointKind a.program label,
    "in  " ++ names _, "out " ++ names _]).toList
  simp [String.toList_append]

theorem length_intercalate_three (separator a b c : String) :
    (String.intercalate separator [a, b, c]).length =
      a.length + b.length + c.length + 2 * separator.length := by
  simp only [String.intercalate_cons_cons, String.intercalate_singleton, String.length_append]
  omega

/-- A backslash and an `n` are two characters, and a line break is one. -/
theorem intercalate_nodeLines_ne (a : Analysis) (label : Label) :
    String.intercalate "\\n" (nodeLines a label) ≠ String.intercalate "\n" (nodeLines a label) := by
  intro h
  have hlength := congrArg String.length h
  simp only [nodeLines, length_intercalate_three] at hlength
  have htwo : "\\n".length = 2 := rfl
  have hone : "\n".length = 1 := rfl
  omega

/-- **The label of a node is one line.**  Every label of the graph has its node in the report.  What
it reads as has a backslash and an `n` where the lines should break, and never reads as the three
lines. -/
theorem Report.label_reads_as_one_line (a : Analysis) (name : String) (label : Label)
    (h : label ∈ a.graph.labels) :
    nodeLine a label ∈ dotLines a name ∧
      LabelReads (nodeLine a label) label (String.intercalate "\\n" (nodeLines a label)) ∧
      ¬ LabelReads (nodeLine a label) label (String.intercalate "\n" (nodeLines a label)) := by
  have hreads := labelReads_nodeLine a label
  rw [nodeText_eq] at hreads
  refine ⟨?_, hreads, fun hlines => ?_⟩
  · have hmem : nodeLine a label ∈ a.graph.labels.map (nodeLine a) := List.mem_map_of_mem h
    simp [dotLines, hmem]
  · exact intercalate_nodeLines_ne a label (hreads.unique hlines)

/-- `console.log(x)` with a variable that is named by a quote and a backslash. -/
def misnamed : Program where
  offset := 0
  body :=
    [.exprStmt 0 (.call 0 (.member 0 (.identifier 0 "console") (.identifier 8 "log") false)
      [some (.identifier 12 "\"\\")])]

/-- The name comes back as it is, on one line with all the rest. -/
theorem misnamed_reads_as_one_line :
    ∃ a, misnamed.analyze {} = .ok a ∧ 0 ∈ a.graph.labels ∧
      LabelReads (nodeLine a 0) 0
        "0: ExpressionStatement\\nin  \x7b \"\\ \x7d\\nout \x7b \x7d" ∧
      ¬ LabelReads (nodeLine a 0) 0
        "0: ExpressionStatement\nin  \x7b \"\\ \x7d\nout \x7b \x7d" := by
  have hrun : (misnamed.analyze {}).toOption.any (fun a => 0 ∈ a.graph.labels ∧ nodeLines a 0 =
      ["0: ExpressionStatement", "in  \x7b \"\\ \x7d", "out \x7b \x7d"]) = true := by
    decide +kernel
  obtain ⟨a, hrun, hlabel, hlines⟩ := Program.exists_analysis hrun
  obtain ⟨-, hread, hnot⟩ := Report.label_reads_as_one_line a "cfg" 0 hlabel
  rw [hlines] at hread hnot
  exact ⟨a, hrun, hlabel, hread, hnot⟩

/-- `throw e` -/
def lone : Program where
  offset := 0
  body := [.throwStmt 0 (some (.identifier 6 "e"))]

/-- The only node should say three lines, and its label reads as one. -/
theorem lone_label_misread :
    ∃ a, lone.analyze {} = .ok a ∧ a.graph.labels = [0] ∧
      nodeLines a 0 = ["0: ThrowStatement", "in  \x7b \x7d", "out \x7b \x7d"] ∧
      LabelReads (nodeLine a 0) 0 "0: ThrowStatement\\nin  \x7b \x7d\\nout \x7b \x7d" ∧
      ¬ LabelReads (nodeLine a 0) 0 "0: ThrowStatement\nin  \x7b \x7d\nout \x7b \x7d" := by
  have hrun : (lone.analyze {}).toOption.any (fun a => a.graph.labels = [0] ∧ nodeLines a 0 =
      ["0: ThrowStatement", "in  \x7b \x7d", "out \x7b \x7d"]) = true := by decide +kernel
  obtain ⟨a, hrun, hlabel, hlines⟩ := Program.exists_analysis hrun
  have hread := labelReads_nodeLine a 0
  rw [nodeText_eq, hlines] at hread
  refine ⟨a, hrun, hlabel, hlines, hread, fun hbroken => ?_⟩
  have hne := intercalate_nodeLines_ne a 0
  rw [hlines] at hne
  exact hne (hread.unique hbroken)

end Liveness
