/-
Liveness/Proofs/Tables.lean

Tables as finite maps.  A table is read through `get?`, and its keys are the
places where `get?` answers.  Writing a key changes its own answer and nothing
else; writing what is there already changes nothing at all, not even the order
of the rows.  The last fact is what lets "a sweep gives the same tables back" be
read off node by node.
-/
import Liveness.Facts.Table

namespace Liveness

namespace Table

variable {κ : Type} [DecidableEq κ]

/-! ### Keys -/

omit [DecidableEq κ] in
@[simp] theorem keys_blank (ks : List κ) : (blank ks).keys = ks := by
  simp [keys, blank, Function.comp_def]

theorem find?_eq_none_iff {key : κ} {rows : List (κ × NameSet)} :
    find? key rows = none ↔ key ∉ rows.map (·.1) := by
  induction rows with
  | nil => simp [find?]
  | cons row rest ih =>
    obtain ⟨k, names⟩ := row
    by_cases hk : k = key
    · simp [find?, hk]
    · have hk' : key ≠ k := fun e => hk e.symm
      simp [find?, hk, hk', ih]

theorem get?_eq_none_iff {t : Table κ} {key : κ} : t.get? key = none ↔ key ∉ t.keys :=
  find?_eq_none_iff

/-- A key is written exactly if the table has an answer for it. -/
theorem mem_keys_iff {t : Table κ} {key : κ} : key ∈ t.keys ↔ ∃ names, t.get? key = some names := by
  rw [← Option.ne_none_iff_exists', Ne, get?_eq_none_iff, Classical.not_not]

theorem get_of_get? {t : Table κ} {key : κ} {names : NameSet} (h : t.get? key = some names) :
    t.get key = names := by
  rw [get, h]
  rfl

theorem get?_of_mem_keys {t : Table κ} {key : κ} (h : key ∈ t.keys) :
    t.get? key = some (t.get key) := by
  obtain ⟨names, hn⟩ := mem_keys_iff.mp h
  rw [get_of_get? hn, hn]

theorem get_of_not_mem_keys {t : Table κ} {key : κ} (h : key ∉ t.keys) : t.get key = ∅ := by
  rw [get, get?_eq_none_iff.mpr h]
  rfl

/-- Two tables give the same answer for a key if both or none have it and the names agree. -/
theorem get?_congr {t t' : Table κ} {key : κ} (hkeys : key ∈ t.keys ↔ key ∈ t'.keys)
    (h : key ∈ t.keys → ∀ x, x ∈ t.get key ↔ x ∈ t'.get key) : t.get? key = t'.get? key := by
  by_cases hk : key ∈ t.keys
  · rw [get?_of_mem_keys hk, get?_of_mem_keys (hkeys.mp hk), NameSet.ext (h hk)]
  · rw [get?_eq_none_iff.mpr hk, get?_eq_none_iff.mpr fun hk' => hk (hkeys.mpr hk')]

/-- The rows of a table without repeated keys are the answers that it gives. -/
theorem mem_rows_iff {t : Table κ} (hn : t.keys.Nodup) {key : κ} {names : NameSet} :
    (key, names) ∈ t.rows ↔ t.get? key = some names := by
  obtain ⟨rows⟩ := t
  simp only [keys, get?] at hn ⊢
  induction rows with
  | nil => simp [find?]
  | cons row rest ih =>
    obtain ⟨k, old⟩ := row
    obtain ⟨hk, hrest⟩ := List.nodup_cons.mp hn
    by_cases e : k = key
    · subst e
      -- the key stands in the first row only
      have hno : (k, names) ∉ rest := fun hm => hk (List.mem_map.mpr ⟨_, hm, rfl⟩)
      simp [find?, hno, eq_comm]
    · have e' : key ≠ k := fun h => e h.symm
      simp [find?, e, e', ih hrest]

/-! ### Writing -/

@[simp] theorem get?_set_self (t : Table κ) (key : κ) (names : NameSet) :
    (t.set key names).get? key = some names := by
  simp [get?, set]

theorem get?_set_ne {key other : κ} (h : other ≠ key) (t : Table κ) (names : NameSet) :
    (t.set key names).get? other = t.get? other := by
  simp [get?, set, find?_setRow_ne h]

theorem keys_setRow (key : κ) (names : NameSet) (rows : List (κ × NameSet)) :
    (setRow key names rows).map (·.1) =
      if key ∈ rows.map (·.1) then rows.map (·.1) else rows.map (·.1) ++ [key] := by
  induction rows with
  | nil => simp [setRow]
  | cons row rest ih =>
    obtain ⟨k, old⟩ := row
    by_cases hk : k = key
    · simp [setRow, hk]
    · have hk' : key ≠ k := fun e => hk e.symm
      rw [setRow, if_neg hk, List.map_cons, ih]
      by_cases hm : key ∈ rest.map (·.1)
      · have hm' : key ∈ ((k, old) :: rest).map (·.1) := List.mem_cons_of_mem _ hm
        rw [if_pos hm, if_pos hm', List.map_cons]
      · have hm' : key ∉ ((k, old) :: rest).map (·.1) := by
          rw [List.map_cons, List.mem_cons]
          rintro (e | h)
          · exact hk' e
          · exact hm h
        rw [if_neg hm, if_neg hm', List.map_cons, List.cons_append]

/-- A key that is written for the first time goes last. -/
theorem keys_set (t : Table κ) (key : κ) (names : NameSet) :
    (t.set key names).keys = if key ∈ t.keys then t.keys else t.keys ++ [key] :=
  keys_setRow key names t.rows

theorem keys_set_of_mem {t : Table κ} {key : κ} (h : key ∈ t.keys) (names : NameSet) :
    (t.set key names).keys = t.keys := by
  rw [keys_set, if_pos h]

theorem nodup_keys_set {t : Table κ} (h : t.keys.Nodup) (key : κ) (names : NameSet) :
    (t.set key names).keys.Nodup := by
  rw [keys_set]
  by_cases hk : key ∈ t.keys
  · rw [if_pos hk]
    exact h
  · rw [if_neg hk, List.nodup_append]
    refine ⟨h, by simp, ?_⟩
    intro a ha b hb e
    rw [List.mem_singleton.mp hb] at e
    exact hk (e ▸ ha)

theorem setRow_eq_self {key : κ} {names : NameSet} {rows : List (κ × NameSet)}
    (h : find? key rows = some names) : setRow key names rows = rows := by
  induction rows with
  | nil => simp [find?] at h
  | cons row rest ih =>
    obtain ⟨k, old⟩ := row
    by_cases hk : k = key
    · rw [find?, if_pos hk] at h
      rw [setRow, if_pos hk, Option.some.inj h]
    · rw [find?, if_neg hk] at h
      rw [setRow, if_neg hk, ih h]

/-- Writing what is there already changes nothing. -/
theorem set_eq_self {t : Table κ} {key : κ} {names : NameSet} (h : t.get? key = some names) :
    t.set key names = t := by
  obtain ⟨rows⟩ := t
  exact congrArg Table.mk (setRow_eq_self h)

@[simp] theorem get_blank (ks : List κ) (key : κ) : (blank ks).get key = ∅ := by
  have h : ∀ names, find? key (ks.map (·, ∅)) = some names → names = ∅ := by
    induction ks with
    | nil => simp [find?]
    | cons k ks ih =>
      intro names
      by_cases hk : k = key
      · simp [find?, hk, eq_comm]
      · simpa [find?, hk] using ih names
  rcases e : (blank ks).get? key with - | names
  · simp [get, e]
  · simp [get, e, h names e]

/-! ### Adding -/

/-- What is added to a key stands there with what was there before. -/
theorem mem_get_add {t : Table κ} {key other : κ} {names : NameSet} {x : String} :
    x ∈ (t.add key names).get other ↔ x ∈ t.get other ∨ key = other ∧ x ∈ names := by
  rw [add]
  by_cases h : key = other
  · subst h
    simp
  · rw [get_set_ne (Ne.symm h)]
    simp [h]

end Table

end Liveness
