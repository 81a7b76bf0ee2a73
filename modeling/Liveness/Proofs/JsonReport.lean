/-
Liveness/Proofs/JsonReport.lean

The JSON report loses nothing.  `Report.contents?` takes a document apart again:
labels are read from keys as decimal integers, lists of names as sets, and members
by their names, whatever their order.  What it finds in the document of an analysis
is what the report was made from.  If its integers are not too long to be written and
read, that document is regular, so its text is read back as the document.  Otherwise
there is no report (`Report.json_eq_error`).

Two labels are never written by the same key, since each is read back from its own.
Tables are written in the order of their labels, so they come back with their rows
in that order: the same map, which is all that a table means (`Table.Restores`).
-/
import Liveness.Proofs.DeadAssignments
import Liveness.Proofs.JsonText
import Liveness.Report.Json
import Mathlib.Data.List.Nodup

namespace Liveness

/-! ### Tables as maps -/

/-- The first table gives the same answers as the second, and no key is in it twice. -/
structure Table.Restores {κ : Type} [DecidableEq κ] (t t' : Table κ) : Prop where
  once : t.keys.Nodup
  answers : ∀ key, t.get? key = t'.get? key

/-- The order of rows does not matter. -/
theorem Table.restores_of_perm {κ : Type} [DecidableEq κ] {t t' : Table κ}
    (h : t.rows.Perm t'.rows) (hn : t'.keys.Nodup) : t.Restores t' := by
  have hn' : t.keys.Nodup := (h.map Prod.fst).nodup_iff.mpr hn
  refine ⟨hn', fun key => Option.ext fun names => ?_⟩
  rw [← mem_rows_iff hn', ← mem_rows_iff hn, h.mem_iff]

/-- No label has two rows in one of the tables of an analysis. -/
structure Analysis.KeysOnce (a : Analysis) : Prop where
  effects : a.effects.KeysOnce
  entry : a.live.facts.entry.keys.Nodup
  exit : a.live.facts.exit.keys.Nodup

/-- The analysis of a program has tables without repeated labels. -/
theorem Program.keysOnce_of_analyze {p : Program} {config : Config} {a : Analysis}
    (h : p.analyze config = .ok a) : a.KeysOnce := by
  obtain ⟨-, heffects, hlive, -⟩ := Program.analyze_eq_ok h
  obtain ⟨hentry, hexit⟩ := Equations.solve_keys hlive
  refine ⟨?_, ?_, ?_⟩
  · rw [heffects]
    exact Effects.keysOnce_allEffects p config.calls
  · rw [hentry]
    exact Equations.nodup_order
  · rw [hexit]
    exact Equations.nodup_order

/-! ### Reading a report -/

namespace Report

/-- An integer that is not too long to be written. -/
def Short (n : Int) : Prop :=
  Text.digitCount n ≤ Text.digitLimit

instance : DecidablePred Short := fun n =>
  inferInstanceAs (Decidable (Text.digitCount n ≤ Text.digitLimit))

/-- No integer of the report is too long to be written. -/
def Fits (a : Analysis) : Prop :=
  ∀ n ∈ integers a, Short n

instance (a : Analysis) : Decidable (Fits a) :=
  inferInstanceAs (Decidable (∀ n ∈ integers a, Short n))

/-- The label that a key writes in decimal, however long it is. -/
def label? (key : String) : Option Label :=
  match Json.readNumber key.length key.toList with
  | .ok (.int n, []) => some n
  | _ => none

/-- An integer of a report. -/
def integer? : Json → Option Int
  | .int n => some n
  | _ => none

/-- A text of a report. -/
def text? : Json → Option String
  | .str s => some s
  | _ => none

/-- A list of a report. -/
def list? {α : Type} (item? : Json → Option α) : Json → Option (List α)
  | .arr items => items.mapM item?
  | _ => none

/-- An edge of a report. -/
def flow? : Json → Option Flow
  | .arr [.int x, .int y] => some (x, y)
  | _ => none

/-- A row of a report: a key and the list of its names, read as a set. -/
def row? (member : String × Json) : Option (Label × NameSet) := do
  let label ← label? member.1
  let names ← list? text? member.2
  return (label, .ofList names)

/-- A table of a report. -/
def table? : Json → Option (Table Label)
  | .obj members => (members.mapM row?).map Table.mk
  | _ => none

/-- A finding of a report. -/
def finding? (j : Json) : Option Finding := do
  let kind ← ((j.get? "kind").bind text?).bind FindingKind.ofName?
  let offset ← (j.get? "offset").bind integer?
  let detail ← (j.get? "detail").bind text?
  return ⟨kind, offset, detail⟩

/-- What a report tells about an analysis. -/
structure Contents where
  flows : List Flow
  gen : Table Label
  kill : Table Label
  entry : Table Label
  exit : Table Label
  findings : List Finding

/-- What a document tells about an analysis. -/
def contents? (doc : Json) : Option Contents := do
  let flows ← (doc.get? "flows").bind (list? flow?)
  let gen ← (doc.get? "gen").bind table?
  let kill ← (doc.get? "kill").bind table?
  let entry ← (doc.get? "lv_entry").bind table?
  let exit ← (doc.get? "lv_exit").bind table?
  let findings ← (doc.get? "diagnostics").bind (list? finding?)
  return { flows, gen, kill, entry, exit, findings }

/-! ### Integers of a report -/

theorem fits_iff {a : Analysis} :
    Fits a ↔ (∀ f ∈ a.graph.flows, Short f.1 ∧ Short f.2) ∧
      (∀ l ∈ a.effects.gen.keys, Short l) ∧ (∀ l ∈ a.effects.kill.keys, Short l) ∧
      (∀ l ∈ a.live.facts.entry.keys, Short l) ∧ (∀ l ∈ a.live.facts.exit.keys, Short l) ∧
      ∀ f ∈ a.findings, Short f.offset := by
  simp only [Fits, integers, List.forall_mem_append, List.forall_mem_flatMap,
    List.forall_mem_map, List.forall_mem_cons, List.not_mem_nil, false_imp_iff, implies_true,
    and_true, and_assoc]

theorem json_eq_ok {a : Analysis} (h : Fits a) : json a = .ok ((document a).pretty ++ "\n") := by
  rw [json, if_pos]
  simpa [Fits, Short] using h

theorem json_eq_error {a : Analysis} (h : ¬ Fits a) :
    json a = .error (.digits Text.digitLimit) := by
  rw [json, if_neg]
  simpa [Fits, Short] using h

/-! ### Reading what was written -/

/-- A list is read back if its items are. -/
theorem mapM_map {α β : Type} (write : α → β) (read? : β → Option α)
    (h : ∀ x, read? (write x) = some x) (xs : List α) : (xs.map write).mapM read? = some xs := by
  induction xs with
  | nil => rfl
  | cons x xs ih => simp [h, ih]

theorem label?_toString (l : Label) : label? (toString l) = some l := by
  have hread : Json.readNumber (toString l).length (toString l).toList = .ok (.int l, []) := by
    have hends : Json.EndsNumber [] := fun c hc => nomatch hc
    have h := Json.readNumber_toString (Json.digitCount_le_length l) hends
    rwa [List.append_nil] at h
  rw [label?, hread]

theorem row?_written (row : Label × NameSet) :
    row? (toString row.1, .arr (row.2.toList.map .str)) = some row := by
  have hnames : NameSet.ofList row.2.toList = row.2 := NameSet.ext fun x => by simp
  have hlist : list? text? (.arr (row.2.toList.map .str)) = some row.2.toList :=
    mapM_map Json.str text? (fun _ => rfl) _
  simp only [row?, label?_toString, hlist, Option.bind_eq_bind, Option.bind_some, hnames]
  rfl

/-- The rows of a table come back in the order of their labels. -/
theorem table?_tableDocument (t : Table Label) : table? (tableDocument t) = some ⟨byLabel t⟩ := by
  rw [tableDocument, table?, mapM_map _ row? row?_written]
  rfl

theorem finding?_findingDocument (f : Finding) : finding? (findingDocument f) = some f := by
  obtain ⟨kind, offset, detail⟩ := f
  cases kind <;> rfl

/-- A document tells what it was made from. -/
theorem contents?_document (a : Analysis) :
    contents? (document a) = some {
      flows := a.graph.flows
      gen := ⟨byLabel a.effects.gen⟩
      kill := ⟨byLabel a.effects.kill⟩
      entry := ⟨byLabel a.live.facts.entry⟩
      exit := ⟨byLabel a.live.facts.exit⟩
      findings := a.findings } := by
  have hflows : ((document a).get? "flows").bind (list? flow?) = some a.graph.flows :=
    mapM_map _ flow? (fun _ => rfl) _
  have hfindings : ((document a).get? "diagnostics").bind (list? finding?) = some a.findings :=
    mapM_map findingDocument finding? finding?_findingDocument _
  have hgen : (document a).get? "gen" = some (tableDocument a.effects.gen) := rfl
  have hkill : (document a).get? "kill" = some (tableDocument a.effects.kill) := rfl
  have hentry : (document a).get? "lv_entry" = some (tableDocument a.live.facts.entry) := rfl
  have hexit : (document a).get? "lv_exit" = some (tableDocument a.live.facts.exit) := rfl
  simp only [contents?, hflows, hfindings, hgen, hkill, hentry, hexit, Option.bind_eq_bind,
    Option.bind_some, table?_tableDocument]
  rfl

/-! ### Documents are regular -/

theorem regular_arr_map {α : Type} {limit : Nat} {write : α → Json} {xs : List α}
    (h : ∀ x ∈ xs, (write x).isRegular limit = true) :
    (Json.arr (xs.map write)).isRegular limit = true := by
  rw [Json.isRegular, Json.isRegularItems_eq, List.all_map, List.all_eq_true]
  exact h

/-- Different labels have different keys. -/
theorem toString_injective : Function.Injective fun l : Label => toString l := by
  intro l l' h
  exact Option.some.inj ((label?_toString l).symm.trans ((congrArg label? h).trans
    (label?_toString l')))

theorem regular_tableDocument {t : Table Label} (h : t.keys.Nodup) (limit : Nat) :
    (tableDocument t).isRegular limit = true := by
  have hlabels : ((byLabel t).map Prod.fst).Nodup :=
    ((Sorting.stableBy_perm _ t.rows).map Prod.fst).nodup_iff.mpr h
  have hkeys := List.Nodup.map toString_injective hlabels
  rw [tableDocument, Json.isRegular, Json.isRegularMembers_eq, Bool.and_eq_true,
    decide_eq_true_eq, List.map_map, List.all_map, List.all_eq_true]
  rw [List.map_map] at hkeys
  exact ⟨hkeys, fun row _ => regular_arr_map fun _ _ => rfl⟩

theorem regular_flow {f : Flow} (h : Short f.1 ∧ Short f.2) :
    (Json.arr [.int f.1, .int f.2]).isRegular Text.digitLimit = true := by
  simp only [Json.isRegular, Json.isRegularItems, Bool.and_true, Bool.and_eq_true,
    decide_eq_true_eq]
  exact h

theorem regular_findingDocument {f : Finding} (h : Short f.offset) :
    (findingDocument f).isRegular Text.digitLimit = true := by
  simp only [findingDocument, Json.isRegular, Json.isRegularMembers, Bool.and_true, Bool.true_and,
    Bool.and_eq_true, decide_eq_true_eq]
  exact ⟨by simp, h⟩

theorem regular_document {a : Analysis} (h : a.KeysOnce) (hfits : Fits a) :
    (document a).isRegular Text.digitLimit = true := by
  obtain ⟨hflows, -, -, -, -, hfindings⟩ := fits_iff.mp hfits
  rw [document, Json.isRegular, Json.isRegularMembers_eq, Bool.and_eq_true]
  refine ⟨rfl, ?_⟩
  simp only [List.all_cons, List.all_nil, Bool.and_true, Bool.and_eq_true]
  exact ⟨regular_arr_map fun f hf => regular_flow (hflows f hf),
    regular_tableDocument h.effects.gen _, regular_tableDocument h.effects.kill _,
    regular_tableDocument h.entry _, regular_tableDocument h.exit _,
    regular_arr_map fun f hf => regular_findingDocument (hfindings f hf)⟩

end Report

/-- **The JSON report loses nothing.**  Take any result whose tables are maps, as those of every
analysed program are (`Program.keysOnce_of_analyze`).  If none of its labels and offsets is too long
to be written, it has a report: the text of a document in which no object has a key twice, in
printable ASCII.  The text is read as that document, and the document tells the edges and the
findings in order, and the four tables as maps from labels to sets of names.  Any other result has
no report. -/
theorem Report.json_lossless (a : Analysis) (h : a.KeysOnce) :
    (Report.Fits a → ∃ text doc contents, Report.json a = .ok text ∧
      Json.parseWithin Text.digitLimit text.toList = .ok doc ∧
      Report.contents? doc = some contents ∧
      contents.flows = a.graph.flows ∧
      contents.findings = a.findings ∧
      contents.gen.Restores a.effects.gen ∧
      contents.kill.Restores a.effects.kill ∧
      contents.entry.Restores a.live.facts.entry ∧
      contents.exit.Restores a.live.facts.exit ∧
      text = doc.pretty ++ "\n" ∧ doc.isRegular Text.digitLimit = true ∧
      text.toList.all Json.isLegible = true) ∧
    (¬ Report.Fits a → Report.json a = .error (.digits Text.digitLimit)) := by
  refine ⟨fun hfits => ?_, Report.json_eq_error⟩
  have hreg := Report.regular_document h hfits
  have htext : ((Report.document a).pretty ++ "\n").toList =
      (Report.document a).pretty.toList ++ ['\n'] := String.toList_append
  have hperm : ∀ t : Table Label, (Report.byLabel t).Perm t.rows := fun t =>
    Sorting.stableBy_perm _ t.rows
  refine ⟨_, Report.document a, _, Report.json_eq_ok hfits, ?_, Report.contents?_document a, rfl,
    rfl, Table.restores_of_perm (hperm _) h.effects.gen,
    Table.restores_of_perm (hperm _) h.effects.kill, Table.restores_of_perm (hperm _) h.entry,
    Table.restores_of_perm (hperm _) h.exit, rfl, hreg, ?_⟩
  · rw [htext]
    exact Json.parseWithin_pretty hreg rfl (Json.endsNumber_newLine 0 [])
  · rw [htext, List.all_append, Json.pretty, String.toList_ofList,
      Json.legible_write Text.digitLimit 0 _ hreg]
    rfl

/-- A result with labels far apart and names that JSON has to escape. -/
def motley : Analysis where
  program := default
  graph :=
    { flows := [(123456789012345678901234567890, -7), (-7, 0), (-7, 123456789012345678901234567890)]
      initial := some (-7)
      finals := [0] }
  effects :=
    { gen := ⟨[(0, ∅), (-7, .ofList ["\"quoted\"", "back\\slash", "𝒳"])]⟩
      kill := ⟨[(123456789012345678901234567890, .ofList ["\x00\x7f", "ué\u2028"])]⟩ }
  live := { facts := { entry := ⟨[(0, .ofList ["𝒳"]), (-7, ∅)]⟩, exit := ∅ }, passes := 3 }
  findings := [⟨.deadAssignment, 0, "tab\tand 😀"⟩, ⟨.unreachable, -7, ""⟩]

/-- The result comes back: edges and findings in order, negative and large labels, and names with
quotes, controls and characters above U+FFFF. -/
theorem motley_lossless :
    motley.KeysOnce ∧ Report.Fits motley ∧
    ∃ text doc contents, Report.json motley = .ok text ∧
      Json.parseWithin Text.digitLimit text.toList = .ok doc ∧
      Report.contents? doc = some contents ∧
      contents.flows = [(123456789012345678901234567890, -7), (-7, 0),
        (-7, 123456789012345678901234567890)] ∧
      contents.findings = [⟨.deadAssignment, 0, "tab\tand 😀"⟩, ⟨.unreachable, -7, ""⟩] ∧
      contents.gen.get? (-7) = some (.ofList ["\"quoted\"", "back\\slash", "𝒳"]) ∧
      contents.kill.get? 123456789012345678901234567890 =
        some (.ofList ["\x00\x7f", "ué\u2028"]) ∧
      contents.exit.get? 0 = none := by
  have hkeys : motley.KeysOnce := ⟨⟨by decide, by decide⟩, by decide, by decide⟩
  have hfits : Report.Fits motley := by
    decide +kernel
  obtain ⟨text, doc, contents, hjson, hparse, hcontents, hflows, hfindings, hgen, hkill, -, hexit,
    -⟩ := (Report.json_lossless motley hkeys).1 hfits
  refine ⟨hkeys, hfits, text, doc, contents, hjson, hparse, hcontents, hflows, hfindings, ?_, ?_,
    ?_⟩
  · rw [hgen.answers]
    rfl
  · rw [hkill.answers]
    rfl
  · rw [hexit.answers]
    rfl

/-- A power of ten has one digit more than its exponent says. -/
theorem digitCount_pow {k : Nat} (h : 0 < k) :
    Text.digitCount (Int.ofNat (Nat.pow 10 k)) = k + 1 := by
  have hle : Text.digitCount (Int.ofNat (Nat.pow 10 k)) ≤ k + 1 :=
    (Nat.length_toDigits_le_iff (by decide) (Nat.succ_pos k)).mpr
      (Nat.pow_lt_pow_right (by decide) (Nat.lt_succ_self k))
  have hlt : ¬ Text.digitCount (Int.ofNat (Nat.pow 10 k)) ≤ k := fun hle =>
    Nat.lt_irrefl _ ((Nat.length_toDigits_le_iff (by decide) h).mp hle)
  omega

/-- The first label after zero that is too long. -/
def overlong : Label :=
  Int.ofNat (Nat.pow 10 Text.digitLimit)

/-- A `break;` with that label: the program has an analysis, and the analysis has no report. -/
theorem overlong_unreported :
    Text.digitCount overlong = 4301 ∧
    ∃ a, (Program.mk 0 [.breakStmt overlong .null]).analyze {} = .ok a ∧ a.KeysOnce ∧
      overlong ∈ a.effects.gen.keys ∧ ¬ ∃ text, Report.json a = .ok text := by
  have hfound : ((Program.mk 0 [.breakStmt overlong .null]).analyze {}).toOption.any
      (fun a => overlong ∈ a.effects.gen.keys) = true := by
    decide +kernel
  obtain ⟨a, hrun, hkey⟩ := Program.exists_analysis hfound
  have hcount : Text.digitCount overlong = Text.digitLimit + 1 := digitCount_pow (by decide)
  have hlong : ¬ Report.Fits a := fun h => by
    have hshort : Report.Short overlong := (Report.fits_iff.mp h).2.1 overlong hkey
    rw [Report.Short, hcount] at hshort
    exact Nat.not_succ_le_self _ hshort
  refine ⟨hcount, a, hrun, Program.keysOnce_of_analyze hrun, hkey, ?_⟩
  rintro ⟨text, htext⟩
  rw [Report.json_eq_error hlong] at htext
  cases htext

end Liveness
