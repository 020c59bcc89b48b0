/-
# The shape of a table

The columns of a table are of the types of its definitions and of one length (`Sound`).  Writing to
rows keeps that and what is under the updates (`Keeps`); what it changes are the stamps of rows and
the chains of their versions.
-/

import ColumnStore.Proofs.Column.Appending
import ColumnStore.Table.Basic

namespace ColumnStore

namespace Segment

theorem bare_revises {s s' : Segment} (h : Column.Revises s s') : s'.bare = s.bare :=
  bare_eq_iff.mpr ⟨h.type_eq, h.start_eq, h.count_eq, h.capacity_eq, by rw [h.data_eq]⟩

end Segment

namespace Column

theorem Keeps.bare_eq {c c' : Column} (h : Keeps c c') : c'.bare = c.bare := by
  refine bare_eq_iff.mpr ⟨h.type_eq, h.policy_eq, h.rows_eq, ?_⟩
  have hs := h.segments
  generalize c.segments = a, c'.segments = b at hs ⊢
  induction hs with
  | nil => rfl
  | cons hr _ ih => simp only [List.map_cons, Segment.bare_revises hr, ih]

end Column

namespace Table

/-- A column that belongs to a definition of a table. -/
structure Holds (t : Table) (d : ColumnDefinition) (c : Column) : Prop where
  sound : c.Sound
  type_eq : c.type = d.type
  policy_eq : c.policy = t.policy
  rows_eq : c.rows = t.rows

/-- A table with a column of all its rows for every definition. -/
structure Sound (t : Table) : Prop where
  columns : List.Forall₂ t.Holds t.definitions t.columns
  capacity : 0 < t.policy.capacity

/-- The versions of a column of a row, the oldest first. -/
def chain (t : Table) (i row : Nat) : List Version :=
  match t.columns[i]? with
  | some c => c.chain row
  | none => []

/-- The value that a column of a row was filled with. -/
def under (t : Table) (source : Source) (i row : Nat) : Except StorageError Scalar := do
  let c ← t.column i
  c.under source row

/-- The stamps of a row. -/
def stamps? (t : Table) (row : Nat) : Option RowStamps := t.versions.rows[row]?

theorem column_eq_ok {t : Table} {i : Nat} {c : Column} :
    t.column i = .ok c ↔ t.columns[i]? = some c := by
  unfold column
  cases t.columns[i]? <;> simp

theorem column_of_none {t : Table} {i : Nat} (h : t.columns[i]? = none) :
    t.column i = .error (.columnOutOfRange t.name i) := by
  rw [column, h]

theorem chain_of_some {t : Table} {i : Nat} {c : Column} (h : t.columns[i]? = some c) (row : Nat) :
    t.chain i row = c.chain row := by
  rw [chain, h]

theorem under_of_some {t : Table} {i : Nat} {c : Column} (h : t.columns[i]? = some c)
    (source : Source) (row : Nat) : t.under source i row = c.under source row := by
  rw [under, column_eq_ok.mpr h]
  rfl

theorem chain_of_none {t : Table} {i : Nat} (h : t.columns[i]? = none) (row : Nat) :
    t.chain i row = [] := by
  rw [chain, h]

theorem length_columns {t : Table} (h : t.Sound) : t.columns.length = t.definitions.length :=
  h.columns.length_eq.symm

/-- Every column is that of a definition. -/
theorem holds_of_some {t : Table} (h : t.Sound) {i : Nat} {c : Column}
    (hc : t.columns[i]? = some c) :
    ∃ d, t.definitions[i]? = some d ∧ t.types[i]? = some c.type ∧ t.Holds d c := by
  obtain ⟨hi, rfl⟩ := List.getElem?_eq_some_iff.mp hc
  have hlen := length_columns h
  have hh := (List.forall₂_iff_get.mp h.columns).2 i (by omega) hi
  rw [List.get_eq_getElem, List.get_eq_getElem] at hh
  refine ⟨_, List.getElem?_eq_getElem (by omega), ?_, hh⟩
  rw [types, List.getElem?_map, List.getElem?_eq_getElem (by omega), hh.type_eq]
  rfl

theorem stamps?_of_lt {t : Table} {row : Nat} (h : row < t.rows) :
    ∃ st, t.stamps? row = some st := ⟨_, Array.getElem?_eq_getElem h⟩

theorem stamps?_eq_none {t : Table} {row : Nat} : t.stamps? row = none ↔ t.rows ≤ row :=
  Array.getElem?_eq_none_iff

theorem checkRow_of_lt {t : Table} {row : Nat} (h : row < t.rows) : t.checkRow row = .ok () :=
  if_pos h

/-- The value that a reader gets from a column of a row. -/
def value (t : Table) (source : Source) (i row : Nat) (s : Snapshot) :
    Except StorageError Scalar :=
  readOver (t.under source i row) (t.chain i row) s

theorem value_of_some {t : Table} {i : Nat} {c : Column} (h : t.columns[i]? = some c)
    (source : Source) (row : Nat) (s : Snapshot) :
    t.value source i row s = c.value source row s := by
  rw [value, chain_of_some h, under_of_some h]
  rfl

/-- **A reader gets the newest version that it sees, and else the value under the updates.** -/
theorem fetch_result {t : Table} (source : Source) (i : Nat) {row : Nat} (hrow : row < t.rows)
    (s : Snapshot) : (t.fetch source i row s).result = t.value source i row s := by
  unfold fetch
  simp only [Reading.result_bind, Reading.result_of, checkRow_of_lt hrow, ok_bind]
  cases hc : t.columns[i]? with
  | none =>
    rw [column_of_none hc, value, chain_of_none hc, under, column_of_none hc]
    rfl
  | some c =>
    rw [column_eq_ok.mpr hc, value_of_some hc]
    exact Column.fetch_result c source row s

/-! ## Writing to rows -/

/-- What writing to rows of a table leaves as it is. -/
structure Keeps (t t' : Table) : Prop where
  name_eq : t'.name = t.name
  definitions_eq : t'.definitions = t.definitions
  policy_eq : t'.policy = t.policy
  dropped_eq : t'.dropped = t.dropped
  rows_eq : t'.rows = t.rows
  columns : List.Forall₂ Column.Keeps t.columns t'.columns

theorem forall₂_keeps_refl {t : Table} (h : t.Sound) :
    List.Forall₂ Column.Keeps t.columns t.columns := by
  refine List.forall₂_same.mpr fun c hc => ?_
  obtain ⟨i, hi⟩ := List.mem_iff_getElem?.mp hc
  obtain ⟨d, -, -, hd⟩ := holds_of_some h hi
  exact Column.Keeps.refl hd.sound

theorem Keeps.refl {t : Table} (h : t.Sound) : Keeps t t :=
  ⟨rfl, rfl, rfl, rfl, rfl, forall₂_keeps_refl h⟩

theorem forall₂_keeps_trans {a b c : List Column} (h : List.Forall₂ Column.Keeps a b)
    (h' : List.Forall₂ Column.Keeps b c) : List.Forall₂ Column.Keeps a c := by
  induction h generalizing c with
  | nil => exact h'
  | cons hs _ ih =>
    cases h' with
    | cons ht hrest => exact .cons (hs.trans ht) (ih hrest)

theorem Keeps.trans {a b c : Table} (h : Keeps a b) (h' : Keeps b c) : Keeps a c :=
  ⟨h'.name_eq.trans h.name_eq, h'.definitions_eq.trans h.definitions_eq,
    h'.policy_eq.trans h.policy_eq, h'.dropped_eq.trans h.dropped_eq,
    h'.rows_eq.trans h.rows_eq, forall₂_keeps_trans h.columns h'.columns⟩

theorem Keeps.sound {t t' : Table} (h : Keeps t t') (ht : t.Sound) : t'.Sound := by
  refine ⟨?_, h.policy_eq ▸ ht.capacity⟩
  have hcols := ht.columns
  have hk := h.columns
  rw [h.definitions_eq]
  generalize t.definitions = ds, t.columns = cs, t'.columns = cs' at hcols hk
  induction hcols generalizing cs' with
  | nil =>
    cases hk
    exact .nil
  | cons hd _ ih =>
    cases hk with
    | cons hc hrest =>
      exact .cons ⟨hc.sound, hc.type_eq.trans hd.type_eq,
        (hc.policy_eq.trans hd.policy_eq).trans h.policy_eq.symm,
        (hc.rows_eq.trans hd.rows_eq).trans h.rows_eq.symm⟩ (ih _ hrest)

theorem Keeps.column {t t' : Table} (h : Keeps t t') {i : Nat} {c : Column}
    (hc : t.columns[i]? = some c) : ∃ c', t'.columns[i]? = some c' ∧ Column.Keeps c c' := by
  obtain ⟨hi, rfl⟩ := List.getElem?_eq_some_iff.mp hc
  have hlen := h.columns.length_eq
  exact ⟨_, List.getElem?_eq_getElem (by omega),
    (List.forall₂_iff_get.mp h.columns).2 i hi (by omega)⟩

theorem Keeps.column_none {t t' : Table} (h : Keeps t t') {i : Nat} (hc : t.columns[i]? = none) :
    t'.columns[i]? = none := by
  have hlen := h.columns.length_eq
  rw [List.getElem?_eq_none_iff] at hc ⊢
  omega

theorem Keeps.types_eq {t t' : Table} (h : Keeps t t') : t'.types = t.types := by
  rw [types, types, h.definitions_eq]

/-- **What is under the updates stays.** -/
theorem Keeps.under_eq {t t' : Table} (h : Keeps t t') (source : Source) (i row : Nat) :
    t'.under source i row = t.under source i row := by
  cases hc : t.columns[i]? with
  | none => rw [under, under, column_of_none hc, column_of_none (h.column_none hc), h.name_eq]
  | some c =>
    obtain ⟨c', hc', hk⟩ := h.column hc
    rw [under_of_some hc, under_of_some hc', hk.under_eq]

/-- **The columns without their updates stay.** -/
theorem Keeps.bare_eq {t t' : Table} (h : Keeps t t') :
    t'.columns.map Column.bare = t.columns.map Column.bare := by
  have hk := h.columns
  generalize t.columns = a, t'.columns = b at hk ⊢
  induction hk with
  | nil => rfl
  | cons hc _ ih => simp only [List.map_cons, hc.bare_eq, ih]

/-- Another column in place of one, with the same values under the updates. -/
theorem keeps_withColumn {t : Table} (h : t.Sound) {i : Nat} {c c' : Column}
    (hc : t.columns[i]? = some c) (hk : Column.Keeps c c') : Keeps t (t.withColumn i c') := by
  refine ⟨rfl, rfl, rfl, rfl, rfl, ?_⟩
  have hr := forall₂_keeps_refl h
  simp only [withColumn]
  generalize t.columns = cs at hc hr
  induction cs generalizing i with
  | nil => simp at hc
  | cons d rest ih =>
    cases hr with
    | cons hd hrest =>
      cases i with
      | zero =>
        obtain rfl : d = c := by simpa using hc
        exact .cons hk hrest
      | succ i => exact .cons hd (ih (by simpa using hc) hrest)

theorem chain_withColumn {t : Table} {i : Nat} {c : Column} (hc : t.columns[i]? = some c)
    (c' : Column) (j row : Nat) :
    (t.withColumn i c').chain j row = if j = i then c'.chain row else t.chain j row := by
  have hi := (List.getElem?_eq_some_iff.mp hc).1
  unfold chain withColumn
  by_cases h : j = i
  · subst h
    simp [hi]
  · simp [h, Ne.symm h]

/-- Other stamps for the rows. -/
theorem keeps_withVersions {t : Table} (h : t.Sound) {v : RowVersions} (hv : v.size = t.rows) :
    Keeps t { t with versions := v } :=
  ⟨rfl, rfl, rfl, rfl, hv, forall₂_keeps_refl h⟩

end Table
end ColumnStore
