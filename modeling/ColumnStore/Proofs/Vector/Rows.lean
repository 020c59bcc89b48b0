/-
# Chunks of rows

A chunk that is made of rows holds them column by column: `ofRows_ok` says that it can be made when
every row has a value of its type for every column, and what its columns hold.
-/

import ColumnStore.Proofs.Vector.Slots
import Mathlib.Data.List.Forall2

namespace ColumnStore

/-- The values of one column in some rows. -/
def columnOf (rows : List Row) (j : Nat) : List Scalar := rows.map fun row => row.getD j .null

@[simp] theorem columnOf_append (rows more : List Row) (j : Nat) :
    columnOf (rows ++ more) j = columnOf rows j ++ columnOf more j := List.map_append

@[simp] theorem length_columnOf (rows : List Row) (j : Nat) :
    (columnOf rows j).length = rows.length := List.length_map _

/-- A row with a value of its type for every column. -/
def FitsTypes (row : Row) (types : List ColumnType) : Prop :=
  List.Forall₂ (fun x t => Scalar.fits x t = true) row types

namespace Chunk

open ValueVector

/-- The columns that hold rows in their first slots. -/
def HoldRows (columns : List ValueVector) (types : List ColumnType) (capacity : Nat)
    (rows : List Row) : Prop :=
  columns.length = types.length ∧ ∀ (j : Nat) (v : ValueVector), columns[j]? = some v →
    v.Sound ∧ types[j]? = some v.type ∧ v.capacity = capacity ∧ v.Holds 0 (columnOf rows j)

/-- A row is written across columns that it fits. -/
theorem setAcross_ok {columns : List ValueVector} {row : Row} {i : Nat}
    (hs : ∀ v ∈ columns, v.Sound ∧ i < v.capacity)
    (hfit : List.Forall₂ (fun x v => Scalar.fits x v.type = true) row columns) :
    ∃ columns', setAcross columns i row = (.ok (), columns') ∧
      columns'.length = columns.length ∧ ∀ (j : Nat) (v' : ValueVector), columns'[j]? = some v' →
        ∃ v, columns[j]? = some v ∧ Extends v v' i ∧ v'.get? i = row[j]? := by
  induction hfit with
  | nil => exact ⟨[], rfl, rfl, by simp⟩
  | @cons x v xs vs hx hxs ih =>
    obtain ⟨hv, hi⟩ := hs v List.mem_cons_self
    obtain ⟨v', he, hs', ht, hc, hself, hother⟩ := set_ok hv hi hx
    obtain ⟨vs', he', hlen, hall⟩ := ih fun w hw => hs w (List.mem_cons_of_mem _ hw)
    refine ⟨v' :: vs', by simp [setAcross, he, he'], by simp [hlen], fun j w hw => ?_⟩
    cases j with
    | zero =>
      obtain rfl : v' = w := by simpa using hw
      exact ⟨v, rfl, ⟨hs', ht, hc, fun j hj hlt => hother j (by omega) hlt⟩, by simpa using hself⟩
    | succ j => simpa using hall j w (by simpa using hw)

theorem holdRows_snoc {columns columns' : List ValueVector} {types : List ColumnType}
    {capacity : Nat} {rows : List Row} {row : Row} (h : HoldRows columns types capacity rows)
    (hroom : rows.length < capacity) (hrow : row.length = types.length)
    (hlen : columns'.length = columns.length)
    (hset : ∀ (j : Nat) (v' : ValueVector), columns'[j]? = some v' → ∃ v, columns[j]? = some v ∧
      Extends v v' rows.length ∧ v'.get? rows.length = row[j]?) :
    HoldRows columns' types capacity (rows ++ [row]) := by
  refine ⟨hlen.trans h.1, fun j v' hv' => ?_⟩
  obtain ⟨v, hv, hext, hself⟩ := hset j v' hv'
  obtain ⟨hs, ht, hc, hold⟩ := h.2 j v hv
  refine ⟨hext.sound, hext.type_eq ▸ ht, hext.capacity_eq.trans hc, fun k x hk => ?_⟩
  have hj : j < row.length := by
    have := (List.getElem?_eq_some_iff.mp hv').1
    have := h.1
    omega
  rw [Nat.zero_add]
  rcases Nat.lt_or_ge k rows.length with hlt | hge
  · rw [hext.get?_eq k hlt (by omega)]
    have := hold k x (by simpa [List.getElem?_append_left, hlt] using hk)
    rwa [Nat.zero_add] at this
  · have hk' : k < rows.length + 1 := by
      have := (List.getElem?_eq_some_iff.mp hk).1
      simpa using this
    obtain rfl : k = rows.length := by omega
    rw [hself]
    simpa [columnOf, hj] using hk

/-- **Rows that fit the types are added to a chunk with room for them.** -/
theorem appendRows_ok {types : List ColumnType} {capacity : Nat} (done rows : List Row)
    {columns : List ValueVector} (h : HoldRows columns types capacity done)
    (hroom : done.length + rows.length ≤ capacity) (hfit : ∀ row ∈ rows, FitsTypes row types) :
    ∃ columns', appendRows ⟨columns, done.length, capacity, none⟩ rows =
        (.ok (), ⟨columns', (done ++ rows).length, capacity, none⟩) ∧
      HoldRows columns' types capacity (done ++ rows) := by
  induction rows generalizing done columns with
  | nil => exact ⟨columns, by simp [appendRows], by simpa using h⟩
  | cons row rest ih =>
    simp only [List.length_cons] at hroom
    have hrow := hfit row List.mem_cons_self
    have hs : ∀ v ∈ columns, v.Sound ∧ done.length < v.capacity := by
      intro v hv
      obtain ⟨j, hj⟩ := List.mem_iff_getElem?.mp hv
      obtain ⟨hv, -, hc, -⟩ := h.2 j v hj
      exact ⟨hv, by omega⟩
    have hlen := hrow.length_eq
    have hfits : List.Forall₂ (fun x v => Scalar.fits x v.type = true) row columns := by
      rw [List.forall₂_iff_get]
      refine ⟨by rw [hlen, h.1], fun j hj hj' => ?_⟩
      obtain ⟨-, ht, -, -⟩ := h.2 j columns[j] (List.getElem?_eq_getElem hj')
      have := (List.forall₂_iff_get.mp hrow).2 j hj (by omega)
      rw [List.get_eq_getElem] at this ⊢
      rwa [List.get_eq_getElem, (List.getElem?_eq_some_iff.mp ht).2] at this
    obtain ⟨columns', he, hlen', hset⟩ := setAcross_ok hs hfits
    have hnext := holdRows_snoc h (by omega) hlen hlen' hset
    have hstep : appendRow ⟨columns, done.length, capacity, none⟩ row =
        (.ok (), ⟨columns', (done ++ [row]).length, capacity, none⟩) := by
      unfold appendRow
      rw [if_neg (by simp only [hlen, h.1, ne_eq, not_true_eq_false, not_false_eq_true])]
      simp only [Option.isSome_none, Bool.false_eq_true, if_false]
      rw [if_neg (show ¬capacity ≤ done.length by omega)]
      simp only [he, List.length_append, List.length_singleton]
    obtain ⟨columns'', he'', hold⟩ := ih (done ++ [row]) hnext (by simp; omega) fun r hr =>
      hfit r (List.mem_cons_of_mem _ hr)
    rw [List.append_assoc] at he'' hold
    exact ⟨columns'', by rw [appendRows, hstep]; exact he'', hold⟩

/-- A new chunk holds no rows. -/
theorem holdRows_new {types : List ColumnType} (ht : ∀ t ∈ types, t.isNested = false)
    (capacity : Nat) : HoldRows (types.map (.new · capacity)) types capacity [] := by
  refine ⟨List.length_map _, fun j v hv => ?_⟩
  obtain ⟨t, hj, rfl⟩ := by simpa using hv
  exact ⟨sound_new (ht t (List.mem_of_getElem? hj)) _, by simp [hj], by simp,
    by simp [Holds, columnOf]⟩

/-- **A chunk of rows holds them.** -/
theorem ofRows_ok {types : List ColumnType} (ht : ∀ t ∈ types, t.isNested = false)
    {rows : List Row} (hfit : ∀ row ∈ rows, FitsTypes row types) :
    ∃ columns, ofRows types rows = .ok ⟨columns, rows.length, rows.length, none⟩ ∧
      HoldRows columns types rows.length rows := by
  have h := holdRows_new ht rows.length
  obtain ⟨columns, he, hold⟩ := appendRows_ok [] rows h (by simp) hfit
  simp only [List.length_nil, List.nil_append] at he hold
  exact ⟨columns, by simp only [ofRows, new, he], hold⟩

/-- What is written across columns fits them. -/
theorem fits_of_setAcross {columns columns' : List ValueVector} {row : Row} {i : Nat}
    (hs : ∀ v ∈ columns, v.Sound) (hlen : row.length = columns.length)
    (hok : setAcross columns i row = (.ok (), columns')) :
    List.Forall₂ (fun x v => Scalar.fits x v.type = true) row columns := by
  induction columns generalizing row columns' with
  | nil =>
    obtain rfl := List.eq_nil_of_length_eq_zero hlen
    exact .nil
  | cons v vs ih =>
    cases row with
    | nil => cases hlen
    | cons x xs =>
      rw [setAcross] at hok
      rcases set_cases (hs v List.mem_cons_self) i x with ⟨v', he, -, hx, -⟩ | ⟨e, he⟩
      · rw [he] at hok
        have hrest : setAcross vs i xs = (.ok (), (setAcross vs i xs).2) :=
          Prod.ext (Prod.mk.inj hok).1 rfl
        exact .cons hx (ih (fun w hw => hs w (List.mem_cons_of_mem _ hw)) (Nat.succ.inj hlen) hrest)
      · rw [he] at hok
        cases hok

/-- **Rows that are added to a chunk fit it.** -/
theorem fits_of_appendRows {types : List ColumnType} {capacity : Nat} (done rows : List Row)
    {columns : List ValueVector} (h : HoldRows columns types capacity done)
    (hroom : done.length + rows.length ≤ capacity) {c : Chunk}
    (hok : appendRows ⟨columns, done.length, capacity, none⟩ rows = (.ok (), c)) :
    ∀ row ∈ rows, FitsTypes row types := by
  induction rows generalizing done columns with
  | nil => exact fun row hm => absurd hm List.not_mem_nil
  | cons row rest ih =>
    simp only [List.length_cons] at hroom
    have hsound : ∀ v ∈ columns, v.Sound := fun v hv =>
      have ⟨j, hj⟩ := List.mem_iff_getElem?.mp hv
      (h.2 j v hj).1
    rw [appendRows] at hok
    -- The row is written across the columns, in the slot behind the rows that are there.
    have hfit : FitsTypes row types ∧ (appendRow ⟨columns, done.length, capacity, none⟩ row).1 = .ok () := by
      rcases ha : appendRow ⟨columns, done.length, capacity, none⟩ row with ⟨e | ⟨⟨⟩⟩, c'⟩
      · rw [ha] at hok
        cases hok
      refine ⟨?_, rfl⟩
      unfold appendRow at ha
      split at ha
      · cases ha
      rename_i hlen
      simp only [Option.isSome_none, Bool.false_eq_true, if_false] at ha
      rw [if_neg (show ¬capacity ≤ done.length by omega)] at ha
      dsimp only at ha
      rcases hset : setAcross columns done.length row with ⟨e | ⟨⟨⟩⟩, columns'⟩
      · rw [hset] at ha
        cases ha
      have hrow := fits_of_setAcross hsound (not_not.mp hlen) hset
      refine List.forall₂_iff_get.mpr ⟨(not_not.mp hlen).trans h.1, fun j hj hj' => ?_⟩
      have hcol : j < columns.length := h.1.symm ▸ hj'
      obtain ⟨-, ht, -⟩ := h.2 j columns[j] (List.getElem?_eq_getElem hcol)
      have hx := (List.forall₂_iff_get.mp hrow).2 j hj hcol
      rw [List.get_eq_getElem, List.get_eq_getElem] at hx ⊢
      rwa [(List.getElem?_eq_some_iff.mp ht).2]
    obtain ⟨columns', he, hold⟩ := appendRows_ok done [row] h (by simp; omega)
      (by simpa using hfit.1)
    have hone : appendRow ⟨columns, done.length, capacity, none⟩ row =
        (.ok (), ⟨columns', (done ++ [row]).length, capacity, none⟩) := by
      rw [appendRows] at he
      rcases ha : appendRow ⟨columns, done.length, capacity, none⟩ row with ⟨e | ⟨⟨⟩⟩, c'⟩
      · rw [ha] at hfit
        cases hfit.2
      · rw [ha] at he
        exact Prod.ext rfl (Prod.mk.inj he).2
    rw [hone] at hok
    exact List.forall_mem_cons.mpr
      ⟨hfit.1, ih (done ++ [row]) hold (by simp; omega) hok⟩

/-- **A chunk is only made of rows that fit it.** -/
theorem fits_of_ofRows {types : List ColumnType} (ht : ∀ t ∈ types, t.isNested = false)
    {rows : List Row} {c : Chunk} (hok : ofRows types rows = .ok c) :
    ∀ row ∈ rows, FitsTypes row types := by
  rw [ofRows] at hok
  split at hok
  · rename_i c' hc
    exact fits_of_appendRows [] rows (holdRows_new ht rows.length) (by simp) hc
  · cases hok

/-- The rows of a column of a chunk of rows are the values of that column. -/
theorem lists_of_holdRows {columns : List ValueVector} {types : List ColumnType} {capacity : Nat}
    {rows : List Row} (h : HoldRows columns types capacity rows) {j : Nat} {v : ValueVector}
    (hv : columns[j]? = some v) : Lists v (List.range rows.length) (columnOf rows j) := by
  refine List.ext_getElem? fun k => ?_
  rcases Nat.lt_or_ge k rows.length with hk | hk
  · have hk' : k < (columnOf rows j).length := by simpa using hk
    have hx : (columnOf rows j)[k]? = some (columnOf rows j)[k] := List.getElem?_eq_getElem hk'
    have := (h.2 j v hv).2.2.2 k _ hx
    rw [Nat.zero_add] at this
    simp [this, hk]
  · simp [hk]

end Chunk
end ColumnStore
