/-
# Packed rows are a table of values

Packed rows hold a table while it is written (`PackedRows.Holds`): of each row the columns in front
of some column, and `NULL` in the others.  A value that is written takes one row one column further,
and leaves the others as they are (`Holds.store`).  So a table can be written row by row
(`Holds.storeFrom`), or column by column (`Holds.scatterFrom`), and either way every value is read
back (`Packs.get?`) and every row is legible (`Legible.read`).
-/

import ColumnStore.Proofs.Row.Packed
import ColumnStore.Proofs.Vector.Rows

namespace ColumnStore
namespace PackedRows

variable {p q : PackedRows} {l : RowLayout} {row heap : Bytes} {i column : Nat} {x : Scalar}
  {t : ColumnType} {values : Row} {table : List Row} {done : Nat → Nat}

/-! ## Tables -/

/-- The row stays filled when the heap grows. -/
theorem Filled.grow (h : Filled l values column row heap) (more : Bytes) :
    Filled l values column row (heap ++ more) where
  columns := h.columns
  length := h.length
  valid := h.valid
  slots j y u hy hu hj hyn := by
    obtain ⟨slot, hslot, hin⟩ := h.slots j y u hy hu hj hyn
    exact ⟨slot, hslot, hin.grow more⟩

/-- Packed rows hold a table: of row `i` the first `done i` columns, and `NULL` in the others. -/
structure Holds (p : PackedRows) (table : List Row) (done : Nat → Nat) : Prop where
  plain : ∀ t ∈ p.layout.types, t.isNested = false
  size_eq : p.size = table.length
  size_lt : p.size < UInt64.size
  length_eq : p.bytes.length = p.size * p.layout.width
  heap_lt : p.heap.length < UInt32.size
  fits : ∀ values ∈ table, FitsTypes values p.layout.types
  filled : ∀ i values, table[i]? = some values →
    ∃ row, p.row? i = some row ∧ Filled p.layout values (done i) row p.heap

/-- Packed rows hold a table, every column of it. -/
def Packs (p : PackedRows) (table : List Row) : Prop := p.Holds table fun _ => p.layout.types.length

theorem Holds.congr (h : p.Holds table done) {done' : Nat → Nat}
    (heq : ∀ i < table.length, done' i = done i) : p.Holds table done' where
  plain := h.plain
  size_eq := h.size_eq
  size_lt := h.size_lt
  length_eq := h.length_eq
  heap_lt := h.heap_lt
  fits := h.fits
  filled i values hvalues := by
    rw [heq i (List.getElem?_eq_some_iff.mp hvalues).1]
    exact h.filled i values hvalues

/-- The value of a column fits its type. -/
theorem type_of_fits {types : List ColumnType} (h : FitsTypes values types)
    (hx : values[column]? = some x) : ∃ t, types[column]? = some t ∧ x.fits t = true := by
  obtain ⟨hlt, rfl⟩ := List.getElem?_eq_some_iff.mp hx
  have hlt' : column < types.length := h.length_eq ▸ hlt
  exact ⟨_, List.getElem?_eq_getElem hlt', h.get hlt hlt'⟩

/-- **A value of a table is read back.** -/
theorem Packs.get? (h : p.Packs table) (hrow : table[i]? = some values)
    (hx : values[column]? = some x) :
    p.isValid? i column = some !x.isNull ∧ p.get? i column = some x := by
  have hfits := h.fits values (List.mem_of_getElem? hrow)
  obtain ⟨t, ht, hfit⟩ := type_of_fits hfits hx
  obtain ⟨row, hread, hfilled⟩ := h.filled i values hrow
  rw [← hfits.length_eq] at hfilled
  exact get?_of_filled hread hfilled hx ht hfit (h.plain t (List.mem_of_getElem? ht))

/-- Rows that hold values of the types of their layout in every column. -/
def Legible (p : PackedRows) : Prop := ∃ table, p.Packs table

/-- **A legible row is read at every column.** -/
theorem Legible.read (h : p.Legible) (hi : i < p.size) (ht : p.layout.types[column]? = some t) :
    ∃ y, p.isValid? i column = some !y.isNull ∧ p.get? i column = some y ∧ y.fits t = true := by
  obtain ⟨table, h⟩ := h
  obtain ⟨values, hvalues⟩ : ∃ values, table[i]? = some values :=
    ⟨_, List.getElem?_eq_getElem (h.size_eq ▸ hi)⟩
  have hfits := h.fits values (List.mem_of_getElem? hvalues)
  have hcolumn : column < values.length := hfits.length_eq ▸ (List.getElem?_eq_some_iff.mp ht).1
  have hx : values[column]? = some values[column] := List.getElem?_eq_getElem hcolumn
  obtain ⟨u, hu, hfit⟩ := type_of_fits hfits hx
  obtain rfl := Option.some.inj (ht.symm.trans hu)
  obtain ⟨hvalid, hget⟩ := h.get? hvalues hx
  exact ⟨_, hvalid, hget, hfit⟩

/-- Before the first row is added. -/
theorem packs_new (h : ∀ t ∈ l.types, t.isNested = false) : Packs { layout := l } [] where
  plain := h
  size_eq := rfl
  size_lt := show 0 < UInt64.size by decide
  length_eq := (Nat.zero_mul _).symm
  heap_lt := show 0 < UInt32.size by decide
  fits _ hvalues := absurd hvalues List.not_mem_nil
  filled _ _ hvalues := by cases hvalues

/-! ## One value -/

@[simp] theorem textOf_null : textOf .null = [] := rfl

/-- **A value is written to the next column of a row.** -/
theorem Holds.store (h : p.Holds table done) (hrow : table[i]? = some values)
    (hx : values[column]? = some x) (hdone : done i = column)
    (hheap : p.heap.length + (textOf x).length < UInt32.size) :
    ∃ q, p.store i column x = (.ok (), q) ∧ q.layout = p.layout ∧ q.heap = p.heap ++ textOf x ∧
      q.Holds table fun j => if j = i then column + 1 else done j := by
  obtain ⟨row, hread, hfilled⟩ := h.filled i values hrow
  rw [hdone] at hfilled
  cases hn : x.isNull with
  | true =>
    obtain rfl := Scalar.eq_null hn
    refine ⟨p, rfl, rfl, (List.append_nil _).symm, { h with filled := fun j other hother => ?_ }⟩
    by_cases hj : j = i
    · obtain rfl : values = other := Option.some.inj (hrow.symm.trans (hj ▸ hother))
      rw [if_pos hj]
      exact ⟨row, hj ▸ hread, hfilled.skip hx rfl⟩
    · rw [if_neg hj]
      exact h.filled j other hother
  | false =>
    obtain ⟨t, ht, hfit⟩ := type_of_fits (h.fits values (List.mem_of_getElem? hrow)) hx
    obtain ⟨slot, q, hstore, hq, hrewrites, hlen, hslot⟩ :=
      store_ok hread ht hfit hn (h.plain t (List.mem_of_getElem? ht)) hheap
    refine ⟨q, hstore, hrewrites.layout_eq, hq, ?_⟩
    have hlayout := hrewrites.layout_eq
    refine ⟨hlayout ▸ h.plain, hrewrites.size_eq.trans h.size_eq, hrewrites.size_eq ▸ h.size_lt, ?_,
      ?_, hlayout ▸ h.fits, fun j other hother => ?_⟩
    · rw [hrewrites.length_eq, hrewrites.size_eq, hlayout, h.length_eq]
    · rwa [hq, List.length_append]
    · rw [hrewrites.row?_eq, hlayout, hq]
      by_cases hj : j = i
      · obtain rfl : values = other := Option.some.inj (hrow.symm.trans (hj ▸ hother))
        rw [if_pos hj, if_pos hj]
        exact ⟨_, rfl, hfilled.store hx ht hn hlen hslot⟩
      · rw [if_neg hj, if_neg hj]
        obtain ⟨old, hold, hother⟩ := h.filled j other hother
        exact ⟨old, hold, hother.grow _⟩

/-- Filling a slot leaves the heap and the layout as they are. -/
theorem fill_heap {slot : Bytes} : (p.fill i column slot).2.heap = p.heap ∧
    (p.fill i column slot).2.layout = p.layout := by
  unfold fill
  dsimp only
  split
  · exact ⟨rfl, rfl⟩
  · split <;> exact ⟨rfl, rfl⟩

/-- **A text that is stored goes behind the heap,** if there is room for it. -/
theorem heap_of_store (hok : p.store i column x = (.ok (), q)) :
    q.layout = p.layout ∧ q.heap.length = p.heap.length + (textOf x).length ∧
      (p.heap.length < UInt32.size → q.heap.length < UInt32.size) := by
  have hfill : ∀ slot, p.fill i column slot = (.ok (), q) → q.layout = p.layout ∧ q.heap = p.heap :=
    fun slot h => by
      have hfilled := @fill_heap p i column slot
      rw [h] at hfilled
      exact hfilled.symm
  unfold store at hok
  cases x
  case null =>
    obtain rfl := (Prod.mk.inj hok).2
    exact ⟨rfl, rfl, id⟩
  case list =>
    obtain rfl := (Prod.mk.inj hok).2
    exact ⟨rfl, rfl, id⟩
  case varchar s =>
    dsimp only at hok
    rw [heapSlot] at hok
    split at hok
    · cases hok
    · rename_i start hstart
      split at hstart
      · cases hstart
      · rename_i hroom
        have hfilled := @fill_heap { p with heap := p.heap ++ Bytes.ofString s } i column
          (Bytes.ofNat 4 start ++ Bytes.ofNat 4 (Bytes.ofString s).length)
        rw [hok] at hfilled
        rw [hfilled.1, List.length_append]
        exact ⟨hfilled.2, rfl, fun _ => Nat.lt_of_not_le hroom⟩
  all_goals
    obtain ⟨hlayout, hheap⟩ := hfill _ hok
    rw [hheap]
    exact ⟨hlayout, rfl, id⟩

/-! ## Row by row -/

/-- The length of all texts in a row. -/
theorem textLength_append (xs ys : List Scalar) :
    textLength (xs ++ ys) = textLength xs + textLength ys := by
  rw [textLength, textLength, textLength, List.flatMap_append, List.length_append]

/-- **A row is written** from its next column on. -/
theorem Holds.storeFrom {before rest : Row} (h : p.Holds table done)
    (hrow : table[i]? = some (before ++ rest)) (hdone : done i = before.length)
    (hheap : p.heap.length + textLength rest < UInt32.size) :
    ∃ q, p.storeFrom i before.length rest = (.ok (), q) ∧ q.layout = p.layout ∧
      q.Holds table fun j => if j = i then (before ++ rest).length else done j := by
  induction rest generalizing before p done with
  | nil =>
    refine ⟨p, rfl, rfl, h.congr fun j _ => ?_⟩
    split
    · rename_i hj
      rw [hj, hdone, List.append_nil]
    · rfl
  | cons x rest ih =>
    have hx : (before ++ x :: rest)[before.length]? = some x := by
      rw [List.getElem?_append_right (Nat.le_refl _), Nat.sub_self, List.getElem?_cons_zero]
    have hlength : (before ++ [x]).length = before.length + 1 := List.length_append ..
    rw [textLength_cons] at hheap
    obtain ⟨q, hstore, hlayout, hq, hholds⟩ := h.store hrow hx hdone (by omega)
    rw [List.append_cons] at hrow ⊢
    obtain ⟨q', hrest, hlayout', hholds'⟩ := ih hholds hrow (by rw [if_pos rfl, hlength])
      (by rw [hq, List.length_append]; omega)
    refine ⟨q', ?_, hlayout'.trans hlayout, hholds'.congr fun j _ => ?_⟩
    · rw [storeFrom]
      cases hn : x.isNull with
      | true =>
        obtain rfl := Scalar.eq_null hn
        obtain rfl : p = q := (Prod.mk.inj hstore).2
        rw [if_pos rfl, ← hlength]
        exact hrest
      | false =>
        obtain ⟨t, ht, hfit⟩ := type_of_fits (h.fits _ (List.mem_of_getElem? hrow))
          (List.append_cons .. ▸ hx)
        rw [if_neg Bool.false_ne_true, ht]
        dsimp only
        rw [if_pos hfit, hstore, Attempt.andThen_ok, ← hlength]
        exact hrest
    · split <;> rfl

/-- **A row that is written fits the types,** and its texts are behind the heap. -/
theorem fits_of_storeFrom {rest : Row} (hok : p.storeFrom i column rest = (.ok (), q))
    (hroom : column + rest.length ≤ p.layout.types.length) :
    List.Forall₂ (fun x t => Scalar.fits x t = true) rest
        ((p.layout.types.drop column).take rest.length) ∧
      q.heap.length = p.heap.length + textLength rest ∧
      (p.heap.length < UInt32.size → q.heap.length < UInt32.size) := by
  induction rest generalizing p column with
  | nil =>
    obtain rfl := (Prod.mk.inj hok).2
    exact ⟨.nil, rfl, id⟩
  | cons x rest ih =>
    rw [List.length_cons] at hroom
    have hcolumn : column < p.layout.types.length := by omega
    rw [List.drop_eq_getElem_cons hcolumn, List.length_cons, List.take_succ_cons, textLength_cons]
    rw [storeFrom] at hok
    cases hn : x.isNull with
    | true =>
      obtain rfl := Scalar.eq_null hn
      rw [if_pos hn] at hok
      obtain ⟨hfits, hheap, hlt⟩ := ih hok (by omega)
      refine ⟨.cons ?_ hfits, by rw [hheap, textOf_null, List.length_nil, Nat.zero_add], hlt⟩
      cases p.layout.types[column] <;> rfl
    | false =>
      rw [hn, if_neg Bool.false_ne_true, List.getElem?_eq_getElem hcolumn] at hok
      dsimp only at hok
      split at hok
      · rename_i hfit
        obtain ⟨⟨⟩, q₁, hstore, hok⟩ := Attempt.andThen_eq_ok.mp hok
        obtain ⟨hlayout, hheap, hlt⟩ := heap_of_store hstore
        obtain ⟨hfits, hheap', hlt'⟩ := ih hok (by rw [hlayout]; omega)
        rw [hlayout] at hfits
        exact ⟨.cons hfit hfits, by rw [hheap', hheap, Nat.add_assoc], fun h => hlt' (hlt h)⟩
      · cases hok

/-! ## Column by column -/

variable {c : Chunk} {v : ValueVector}

/-- **A column of rows is written** from its next row on. -/
theorem Holds.scatter (first k : Nat) {xs : List Scalar} (h : p.Holds table done)
    (hread : ∀ j x, xs[j]? = some x → (c.slot? (k + j)).bind v.get? = some x)
    (hrows : ∀ j x, xs[j]? = some x →
      ∃ values, table[first + (k + j)]? = some values ∧ values[column]? = some x)
    (hdone : ∀ j < xs.length, done (first + (k + j)) = column)
    (hheap : p.heap.length + textLength xs < UInt32.size) :
    ∃ q, scatter c v first column xs.length k p = (.ok (), q) ∧ q.layout = p.layout ∧
      q.heap.length = p.heap.length + textLength xs ∧
      q.Holds table fun i =>
        if first + k ≤ i ∧ i < first + k + xs.length then column + 1 else done i := by
  induction xs generalizing p done k with
  | nil =>
    refine ⟨p, rfl, rfl, rfl, h.congr fun i _ => if_neg ?_⟩
    rw [List.length_nil]
    omega
  | cons x xs ih =>
    rw [textLength_cons] at hheap
    obtain ⟨values, hvalues, hx⟩ := hrows 0 x rfl
    obtain ⟨q, hstore, hlayout, hq, hholds⟩ :=
      h.store hvalues hx (hdone 0 (Nat.succ_pos _)) (by omega)
    have hnext : ∀ j, k + 1 + j = k + (j + 1) := fun j => by omega
    obtain ⟨q', hrest, hlayout', hheap', hholds'⟩ := @ih q _ (k + 1) hholds
      (fun j y hy => by rw [hnext]; exact hread (j + 1) y hy)
      (fun j y hy => by rw [hnext]; exact hrows (j + 1) y hy)
      (fun j hj => by
        rw [hnext, if_neg (by omega)]
        exact hdone (j + 1) (Nat.succ_lt_succ hj))
      (by rw [hq, List.length_append]; omega)
    refine ⟨q', ?_, hlayout'.trans hlayout, ?_, hholds'.congr fun i _ => ?_⟩
    · have hslot := hread 0 x rfl
      rw [Nat.add_zero] at hslot
      rw [List.length_cons, PackedRows.scatter, hslot]
      dsimp only
      rw [Nat.add_zero] at hstore
      rw [hstore, Attempt.andThen_ok]
      exact hrest
    · rw [hheap', hq, List.length_append, textLength_cons, Nat.add_assoc]
    · rw [List.length_cons]
      split_ifs <;> first | rfl | omega

/-- The values that some columns have for the rows of a chunk, first those of the first column. -/
def ColumnsHold (c : Chunk) (vs : List ValueVector) (rows : List Row) (column : Nat) : Prop :=
  ∀ (j : Nat) (v : ValueVector), vs[j]? = some v → v.type.isNested = false ∧
    ∀ (k : Nat) (values : Row), rows[k]? = some values →
      (c.slot? k).bind v.get? = some (values.getD (column + j) .null)

/-- **The columns of rows are written** one after the other. -/
theorem Holds.scatterFrom {vs : List ValueVector} {before rows : List Row} {full : Nat}
    (h : p.Holds (before ++ rows) fun i => if i < before.length then full else column)
    (hrows : rows.length = c.cardinality) (hroom : column + vs.length ≤ p.layout.types.length)
    (hread : ColumnsHold c vs rows column)
    (hheap : p.heap.length +
      textLength ((List.range' column vs.length).flatMap (columnOf rows)) < UInt32.size) :
    ∃ q, scatterFrom c before.length column vs p = (.ok (), q) ∧ q.layout = p.layout ∧
      q.Holds (before ++ rows) fun i => if i < before.length then full else column + vs.length := by
  induction vs generalizing p column with
  | nil => exact ⟨p, rfl, rfl, h⟩
  | cons v vs ih =>
    obtain ⟨hflat, hvalues⟩ := hread 0 v rfl
    rw [List.length_cons, List.range'_succ, List.flatMap_cons, textLength_append] at hheap
    rw [List.length_cons] at hroom
    have hlength : (columnOf rows column).length = c.cardinality := by rw [length_columnOf, hrows]
    have hplace : ∀ (j : Nat) (x : Scalar), (columnOf rows column)[j]? = some x →
        ∃ values, rows[j]? = some values ∧ x = values.getD column .null := fun j x hx => by
      rw [columnOf, List.getElem?_map] at hx
      obtain ⟨values, hj, hx⟩ := Option.map_eq_some_iff.mp hx
      exact ⟨values, hj, hx.symm⟩
    obtain ⟨q, hone, hlayout, hq, hholds⟩ := Holds.scatter (c := c) (v := v) before.length 0 h
      (fun j x hx => by
        obtain ⟨values, hj, rfl⟩ := hplace j x hx
        rw [Nat.zero_add]
        exact hvalues j values hj)
      (fun j x hx => by
        obtain ⟨values, hj, rfl⟩ := hplace j x hx
        refine ⟨values, ?_, ?_⟩
        · rw [Nat.zero_add, List.getElem?_append_right (Nat.le_add_right _ _),
            Nat.add_sub_cancel_left, hj]
        · have hfits := h.fits values (List.mem_append_right _ (List.mem_of_getElem? hj))
          rw [List.getD_eq_getElem?_getD, List.getElem?_eq_getElem (by rw [hfits.length_eq]; omega)]
          rfl)
      (fun j _ => if_neg (by omega)) (by omega)
    rw [hlength] at hone hholds
    obtain ⟨q', hrest, hlayout', hholds'⟩ := @ih q (column + 1)
      (hholds.congr fun i hi => by
        rw [List.length_append, hrows] at hi
        split_ifs <;> first | rfl | omega)
      (by rw [hlayout]; omega)
      (fun j w hw => by
        rw [Nat.add_right_comm]
        exact hread (j + 1) w hw)
      (by rw [hq]; omega)
    refine ⟨q', ?_, hlayout'.trans hlayout, hholds'.congr fun i _ => ?_⟩
    · rw [PackedRows.scatterFrom, hflat, if_neg Bool.false_ne_true, hone, Attempt.andThen_ok]
      exact hrest
    · rw [List.length_cons]
      split_ifs <;> first | rfl | omega

/-- **A column that is written can be read,** and its texts are behind the heap. -/
theorem reads_of_scatter {first left k : Nat}
    (hok : PackedRows.scatter c v first column left k p = (.ok (), q)) :
    ∃ xs, xs.length = left ∧
      (∀ j x, xs[j]? = some x → (c.slot? (k + j)).bind v.get? = some x) ∧ q.layout = p.layout ∧
      q.heap.length = p.heap.length + textLength xs ∧
      (p.heap.length < UInt32.size → q.heap.length < UInt32.size) := by
  induction left generalizing p k with
  | zero =>
    obtain rfl := (Prod.mk.inj hok).2
    exact ⟨[], rfl, fun j x hx => absurd hx (by simp), rfl, rfl, id⟩
  | succ left ih =>
    rw [PackedRows.scatter] at hok
    cases hread : (c.slot? k).bind v.get? with
    | none =>
      rw [hread] at hok
      cases hok
    | some x =>
      rw [hread] at hok
      obtain ⟨⟨⟩, q₁, hstore, hok⟩ := Attempt.andThen_eq_ok.mp hok
      obtain ⟨hlayout, hheap, hlt⟩ := heap_of_store hstore
      obtain ⟨xs, hlen, hreads, hlayout', hheap', hlt'⟩ := ih hok
      refine ⟨x :: xs, by rw [List.length_cons, hlen], fun j y hy => ?_, hlayout'.trans hlayout, ?_,
        fun h => hlt' (hlt h)⟩
      · cases j with
        | zero => rw [Nat.add_zero, hread, ← hy, List.getElem?_cons_zero]
        | succ j =>
          rw [show k + (j + 1) = k + 1 + j by omega]
          exact hreads j y hy
      · rw [hheap', hheap, textLength_cons, Nat.add_assoc]

/-- **Columns that are written can be read,** and their texts are behind the heap. -/
theorem reads_of_scatterFrom {first : Nat} {vs : List ValueVector}
    (hok : PackedRows.scatterFrom c first column vs p = (.ok (), q)) :
    (∀ v ∈ vs, v.type.isNested = false ∧
      ∀ k < c.cardinality, ∃ x, (c.slot? k).bind v.get? = some x) ∧
    (∀ rows : List Row, rows.length = c.cardinality → ColumnsHold c vs rows column →
      q.heap.length = p.heap.length +
        textLength ((List.range' column vs.length).flatMap (columnOf rows))) ∧
    (p.heap.length < UInt32.size → q.heap.length < UInt32.size) := by
  induction vs generalizing p column with
  | nil =>
    obtain rfl := (Prod.mk.inj hok).2
    exact ⟨fun v hv => absurd hv List.not_mem_nil, fun _ _ _ => rfl, id⟩
  | cons v vs ih =>
    rw [PackedRows.scatterFrom] at hok
    cases hflat : v.type.isNested with
    | true =>
      rw [hflat] at hok
      cases hok
    | false =>
      rw [hflat, if_neg Bool.false_ne_true] at hok
      obtain ⟨⟨⟩, q₁, hone, hok⟩ := Attempt.andThen_eq_ok.mp hok
      obtain ⟨xs, hlen, hreads, -, hheap, hlt⟩ := reads_of_scatter hone
      obtain ⟨hrest, hheap', hlt'⟩ := ih hok
      refine ⟨List.forall_mem_cons.mpr ⟨⟨hflat, fun k hk => ?_⟩, hrest⟩, fun rows hrows hhold => ?_,
        fun h => hlt' (hlt h)⟩
      · have hx := hreads k _ (List.getElem?_eq_getElem (hlen ▸ hk))
        rw [Nat.zero_add] at hx
        exact ⟨_, hx⟩
      · -- the values that were read are those of the column
        obtain rfl : xs = columnOf rows column := by
          refine List.ext_getElem (by rw [hlen, length_columnOf, hrows]) fun k hk hk' => ?_
          have hx := hreads k _ (List.getElem?_eq_getElem hk)
          have hrow : k < rows.length := by rw [hrows, ← hlen]; exact hk
          have hy := (hhold 0 v rfl).2 k _ (List.getElem?_eq_getElem hrow)
          rw [Nat.zero_add, hy] at hx
          rw [← Option.some.inj hx, Nat.add_zero]
          simp only [columnOf, List.getElem_map]
        rw [List.length_cons, List.range'_succ, List.flatMap_cons, textLength_append,
          hheap' rows hrows fun j w hw => by
            rw [Nat.add_right_comm]
            exact hhold (j + 1) w hw, hheap, Nat.add_assoc]

end PackedRows
end ColumnStore
