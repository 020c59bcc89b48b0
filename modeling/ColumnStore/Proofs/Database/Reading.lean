/-
# What a scan gives

A scan gives the rows that its reader sees and its filters admit, in order and with their numbers, and
then the reader's own rows (`Scan.run_ok`), and it gives them whenever numbers and memory suffice
(`Scan.run_total`).  Of the segments that it does not read it is asked that there is no such row in
them (`Scan.Fair`).

Each chunk is of some rows that follow each other in one segment, or among the reader's own, and none
is empty.
-/

import ColumnStore.Proofs.Database.Acting
import ColumnStore.Proofs.Table.Copying
import ColumnStore.Proofs.Table.Filtering

namespace ColumnStore

/-! ## Numbered rows -/

/-- The values of some columns of a row, under a number. -/
def numbered (columns : List Nat) (id : Nat) (row : Row) : Nat × Row :=
  (id, columns.map fun i => row.getD i .null)

/-- The values of some columns of rows that are numbered from `first` on, those apart in whose place
there is none. -/
def numberedFrom (first : Nat) (columns : List Nat) (rows : List (Option Row)) : List (Nat × Row) :=
  (rows.zipIdx first).filterMap fun p => p.1.map (numbered columns p.2)

theorem numberedFrom_map_range' (first : Nat) (columns : List Nat) (f : Nat → Option Row)
    (start n : Nat) :
    numberedFrom (first + start) columns ((List.range' start n).map f) =
      (List.range' start n).filterMap fun r => (f r).map (numbered columns (first + r)) := by
  induction n generalizing start with
  | zero => rfl
  | succ n ih =>
    have hrest := ih (start + 1)
    rw [List.range'_succ, List.map_cons, List.filterMap_cons, ← hrest, numberedFrom,
      List.zipIdx_cons, List.filterMap_cons]
    rfl

namespace ScanChunk

/-- The rows of a chunk with their numbers, if there are as many numbers as rows. -/
def numbered? (c : ScanChunk) : Option (List (Nat × Row)) := do
  let rows ← c.chunk.slots.mapM c.chunk.atSlot?
  if rows.length = c.ids.length then some (c.ids.zip rows) else none

/-- The rows of all chunks with their numbers, in order. -/
def listing? (chunks : List ScanChunk) : Option (List (Nat × Row)) :=
  (chunks.mapM numbered?).map List.flatten

theorem listing?_append {chunks more : List ScanChunk} {rows rows' : List (Nat × Row)}
    (h : listing? chunks = some rows) (h' : listing? more = some rows') :
    listing? (chunks ++ more) = some (rows ++ rows') := by
  obtain ⟨parts, hparts, rfl⟩ := Option.map_eq_some_iff.mp h
  obtain ⟨parts', hparts', rfl⟩ := Option.map_eq_some_iff.mp h'
  rw [listing?, List.mapM_append, hparts, hparts']
  simp

/-- A chunk of rows of one part of a table, at least one. -/
structure Covers (line : Nat → Option (Nat × Row)) (p : Nat × Nat) (c : ScanChunk) : Prop where
  nonempty : c.ids ≠ []
  listing_eq : listing? [c] = some ((List.range' p.1 p.2).filterMap line)

/-- The numbers of the rows of a chunk are those that they are listed under. -/
theorem ids_of_listing {c : ScanChunk} {rows : List (Nat × Row)} (h : listing? [c] = some rows) :
    c.ids = rows.map (·.1) := by
  obtain ⟨parts, hparts, rfl⟩ := Option.map_eq_some_iff.mp h
  rw [List.mapM_cons, List.mapM_nil] at hparts
  obtain ⟨part, hpart, hparts⟩ := Option.bind_eq_some_iff.mp hparts
  obtain rfl := Option.some.inj hparts
  obtain ⟨values, -, hpart⟩ := Option.bind_eq_some_iff.mp hpart
  obtain ⟨hlength, hpart⟩ := Option.ite_none_right_eq_some.mp hpart
  obtain rfl := Option.some.inj hpart
  rw [List.flatten_singleton, List.map_fst_zip (Nat.le_of_eq hlength.symm)]

/-- **The rows of a chunk** are of its part, which has as many rows at least. -/
theorem Covers.ids {line : Nat → Option (Nat × Row)} {p : Nat × Nat} {c : ScanChunk}
    (h : c.Covers line p) (first : Nat) (hline : ∀ r q, line r = some q → q.1 = first + r) :
    c.ids.length ≤ p.2 ∧ ∀ id ∈ c.ids, first + p.1 ≤ id ∧ id < first + (p.1 + p.2) := by
  rw [ids_of_listing h.listing_eq]
  constructor
  · rw [List.length_map]
    exact Nat.le_trans (List.length_filterMap_le ..) (Nat.le_of_eq List.length_range')
  · intro id hid
    obtain ⟨q, hq, rfl⟩ := List.mem_map.mp hid
    obtain ⟨r, hr, hrow⟩ := List.mem_filterMap.mp hq
    obtain ⟨hlow, hhigh⟩ := List.mem_range'_1.mp hr
    rw [hline r q hrow]
    omega

end ScanChunk

/-! ## Parts of a range -/

/-- **Pieces of a range** are the range, cut up. -/
theorem Scan.flatMap_pieces {step : Nat} (hstep : 0 < step) (start stop : Nat) :
    (Scan.pieces step start stop).flatMap (fun p => List.range' p.1 p.2) =
      List.range' start (stop - start) := by
  have hcut : ∀ n, (List.range n).flatMap (fun i =>
      List.range' (start + i * step) (min step (stop - (start + i * step)))) =
        List.range' start (min (n * step) (stop - start)) := by
    intro n
    induction n with
    | zero => simp
    | succ n ih =>
      rw [List.range_succ, List.flatMap_append, ih, List.flatMap_singleton, Nat.succ_mul]
      rcases Nat.le_total (stop - start) (n * step) with hle | hle
      · have hzero : min step (stop - (start + n * step)) = 0 := by omega
        rw [hzero, Nat.min_eq_right hle, Nat.min_eq_right (by omega)]
        simp
      · rw [Nat.min_eq_left hle, List.range'_append_1]
        congr 1
        omega
  rw [Scan.pieces, List.flatMap_map, hcut]
  congr 1
  have hdiv := Nat.div_add_mod (stop - start + step - 1) step
  have hmod := Nat.mod_lt (stop - start + step - 1) hstep
  rw [Nat.mul_comm] at hdiv
  omega

/-! ## Reading a part -/

namespace Table

variable {t : Table} {source : Source} {s : Snapshot}

/-- The values of a row as a snapshot sees it, none of a row that it does not see. -/
def row? (t : Table) (source : Source) (s : Snapshot) (r : Nat) : Option Row :=
  if t.versions.isVisible? r s = some true then
    (List.range t.definitions.length).mapM fun i => (t.fetch source i r s).result.toOption
  else none

theorem isVisible?_eq (t : Table) (r : Nat) (s : Snapshot) :
    t.versions.isVisible? r s = (t.stamps? r).map (·.isVisible s) := rfl

theorem row?_of_hidden {r : Nat} (h : (t.stamps? r).any (·.isVisible s) = false) :
    t.row? source s r = none := by
  rw [row?, isVisible?_eq, if_neg]
  intro hv
  obtain ⟨st, hst, hseen⟩ := Option.map_eq_some_iff.mp hv
  rw [hst, Option.any_some, hseen] at h
  cases h

/-- **A row that is seen can be read,** with a value for every column. -/
theorem row?_of_visible {r : Nat} (h : t.Legible source)
    (hv : (t.stamps? r).any (·.isVisible s) = true) :
    ∃ row, t.row? source s r = some row ∧ row.length = t.definitions.length ∧
      ∀ i, i < t.definitions.length → t.value source i r s = .ok (row.getD i .null) := by
  obtain ⟨st, hst, hseen⟩ := (Option.any_eq_true _ _).mp hv
  have hrow := of_stamps? hst
  have hread : ∀ i, i < t.definitions.length → ∃ x, t.value source i r s = .ok x := by
    intro i hi
    obtain ⟨c, hc⟩ : ∃ c, t.columns[i]? = some c :=
      ⟨_, List.getElem?_eq_getElem ((length_columns h.sound).symm ▸ hi)⟩
    obtain ⟨d, -, -, hd⟩ := holds_of_some h.sound hc
    rw [value_of_some hc]
    obtain ⟨x, hx, -⟩ := (h.columns c (List.mem_of_getElem? hc)).under r (hd.rows_eq.symm ▸ hrow)
    rw [Column.value, readOver]
    split
    · exact ⟨_, rfl⟩
    · exact ⟨x, hx⟩
  refine ⟨(List.range t.definitions.length).map fun i =>
    ((t.value source i r s).toOption).getD .null, ?_, by simp, fun i hi => ?_⟩
  · rw [row?, isVisible?_eq, hst, Option.map_some, hseen, if_pos rfl]
    refine mapM_eq_map fun i hi => ?_
    obtain ⟨x, hx⟩ := hread i (List.mem_range.mp hi)
    rw [fetch_result source i hrow, hx]
    rfl
  · obtain ⟨x, hx⟩ := hread i hi
    rw [List.getD_eq_getElem?_getD, List.getElem?_map, List.getElem?_range hi, Option.map_some, hx]
    rfl

end Table

/-- What is kept of a list and changed. -/
theorem filterMap_eq_map_filter {α β : Type} {f : α → Option β} {p : α → Bool} {g : α → β}
    {xs : List α} (hkept : ∀ x ∈ xs, p x = true → f x = some (g x))
    (hleft : ∀ x ∈ xs, p x = false → f x = none) : xs.filterMap f = (xs.filter p).map g := by
  induction xs with
  | nil => rfl
  | cons x rest ih =>
    have hrest := ih (fun y hy => hkept y (List.mem_cons_of_mem _ hy))
      fun y hy => hleft y (List.mem_cons_of_mem _ hy)
    cases hx : p x with
    | true =>
      rw [List.filterMap_cons_some (hkept x List.mem_cons_self hx), List.filter_cons_of_pos hx,
        List.map_cons, hrest]
    | false =>
      rw [List.filterMap_cons_none (hleft x List.mem_cons_self hx),
        List.filter_cons_of_neg (by simp [hx]), hrest]

namespace Scan

variable {s : Scan} {source : Source}

/-- Whether the filters of a scan admit a row. -/
def admits (s : Scan) (row : Row) : Bool := s.filters.all fun b => b.admits fun j => row.getD j .null

/-- The committed row that a scan is to give for a number, if it is to give one. -/
def row? (s : Scan) (source : Source) (r : Nat) : Option Row :=
  (s.table.row? source s.snapshot r).filter s.admits

/-- The row of the reader that a scan is to give, if it is to give one. -/
def ownRow? (s : Scan) (l : LocalRows) (i : Nat) : Option Row :=
  (if l.isDeleted i then none else l.row? i).filter s.admits

/-- The filters of a scan are for the table. -/
def Bound (s : Scan) : Prop := ∀ b, s.filters = some b → b.Fits s.table

theorem mem_needed {j : Nat} : j ∈ s.needed ↔ j < s.table.definitions.length ∧
    (j ∈ s.columns ∨ ∃ b, s.filters = some b ∧ j ∈ b.columns) := by
  rw [needed, List.mem_filter, List.mem_range, List.contains_iff_mem, List.mem_append]
  cases s.filters <;> simp

/-- The columns of the filters are read. -/
theorem Bound.needed (h : s.Bound) {b : BoundFilters} (hb : s.filters = some b) {j : Nat}
    (hj : j ∈ b.columns) : j ∈ s.needed := by
  obtain ⟨f, hf, rfl⟩ := List.mem_map.mp hj
  obtain ⟨types, htyped, -⟩ := h b hb
  obtain ⟨k, hk⟩ := List.mem_iff_getElem?.mp hf
  obtain ⟨type, -, htype, -⟩ := htyped.type_of_mem hk
  refine mem_needed.mpr ⟨?_, Or.inr ⟨b, hb, hj⟩⟩
  rw [← List.length_map ColumnDefinition.type]
  exact (List.getElem?_eq_some_iff.mp htype).1

/-- Vectors that hold columns of rows in some of their slots. -/
def Holding (types : List ColumnType) (vectors : List (Nat × ValueVector)) (columns : List Nat)
    (count : Nat) (slots : Selection) (row : Nat → Row) : Prop :=
  ∀ j ∈ columns, ∃ v, vectors.lookup j = some v ∧ v.Sound ∧ types[j]? = some v.type ∧
    v.capacity = count ∧ ∀ i ∈ slots, v.get? i = some ((row i).getD j .null)

theorem Holding.mono {types : List ColumnType} {vectors : List (Nat × ValueVector)}
    {columns columns' : List Nat} {count : Nat} {slots slots' : Selection} {row : Nat → Row}
    (h : Holding types vectors columns count slots row) (hcolumns : ∀ j ∈ columns', j ∈ columns)
    (hslots : ∀ i ∈ slots', i ∈ slots) : Holding types vectors columns' count slots' row :=
  fun j hj => by
    obtain ⟨v, hv, hs, htype, hcap, hget⟩ := h j (hcolumns j hj)
    exact ⟨v, hv, hs, htype, hcap, fun i hi => hget i (hslots i hi)⟩

/-- The vector of a column among those that were read. -/
def vectorOf (vectors : List (Nat × ValueVector)) (j : Nat) : ValueVector :=
  (vectors.lookup j).getD default

theorem pick_eq {types : List ColumnType} {vectors : List (Nat × ValueVector)} {columns : List Nat}
    {count : Nat} {slots : Selection} {row : Nat → Row}
    (h : Holding types vectors columns count slots row) :
    s.pick vectors columns = .ok (columns.map (vectorOf vectors)) := by
  refine mapM_eq_ok fun j hj => ?_
  obtain ⟨v, hv, -⟩ := h j hj
  rw [vectorOf, hv]
  rfl

variable {vectors : List (Nat × ValueVector)} {count : Nat} {slots : Selection} {row : Nat → Row}

theorem pick_ok {types : List ColumnType} {columns : List Nat}
    (h : Holding types vectors columns count slots row) :
    ∃ picked, s.pick vectors columns = .ok picked ∧ (∀ v ∈ picked, v.capacity = count) ∧
      ∀ i ∈ slots, picked.mapM (·.get? i) = some (columns.map fun j => (row i).getD j .null) := by
  refine ⟨_, pick_eq h, fun v hv => ?_, fun i hi => ?_⟩
  · obtain ⟨j, hj, rfl⟩ := List.mem_map.mp hv
    obtain ⟨v, hv, -, -, hcap, -⟩ := h j hj
    rw [vectorOf, hv]
    exact hcap
  · rw [List.mapM_map]
    refine mapM_eq_map fun j hj => ?_
    obtain ⟨v, hv, -, -, -, hget⟩ := h j hj
    rw [Function.comp_apply, vectorOf, hv]
    exact hget i hi

/-- **Filters leave the rows that they admit.** -/
theorem finish_eq (hbound : s.Bound) (h : Holding s.table.types vectors s.needed count slots row)
    (hslots : ∀ i ∈ slots, i < count) (first : Nat) :
    s.finish vectors count slots first = finish { s with filters := none } vectors count
      (slots.filter fun i => s.admits (row i)) first := by
  unfold finish
  cases hb : s.filters with
  | none =>
    have hall : slots.filter (fun i => s.admits (row i)) = slots :=
      List.filter_eq_self.mpr fun i _ => by rw [admits, hb, Option.all_none]
    rw [hall]
    rfl
  | some b =>
    have hcolumns := fun j hj => hbound.needed (j := j) hb hj
    have hread := h.mono hcolumns fun _ hi => hi
    have hreads : BoundFilters.Reads s.table b.filters (vectorOf vectors) count := fun f hf => by
      obtain ⟨v, hv, hs, htype, hcap, -⟩ := hread f.column (List.mem_map_of_mem hf)
      rw [vectorOf, hv]
      exact ⟨hs, htype, Nat.le_of_eq hcap.symm⟩
    have happly := (hbound b hb).apply_eq hreads hslots
      (fun i j => (row i).getD j .null) fun i hi f hf => by
        obtain ⟨v, hv, -, -, -, hget⟩ := hread f.column (List.mem_map_of_mem hf)
        rw [vectorOf, hv]
        exact hget i hi
    have hadmits : s.admits = fun row => b.admits fun j => row.getD j .null := by
      funext row
      rw [admits, hb, Option.all_some]
    rw [hadmits]
    dsimp only
    rw [pick_eq hread, ok_bind, happly]
    rfl

/-- **A chunk of the rows that pass** lists them under their numbers. -/
theorem finish_ok (hbound : s.Bound) (hcolumns : ∀ j ∈ s.columns, j < s.table.definitions.length)
    (h : Holding s.table.types vectors s.needed count slots row) (hslots : ∀ i ∈ slots, i < count)
    (first : Nat) :
    ∃ part, s.finish vectors count slots first = .ok part ∧
      ScanChunk.listing? part.toList = some ((slots.filter fun i => s.admits (row i)).map fun i =>
        numbered s.columns (first + i) (row i)) ∧ ∀ c ∈ part, c.ids ≠ [] := by
  rw [finish_eq hbound h hslots]
  generalize hpassed : slots.filter (fun i => s.admits (row i)) = passed
  have hmem : ∀ i ∈ passed, i ∈ slots := fun i hi => (List.mem_filter.mp (hpassed ▸ hi)).1
  have hread := h.mono (fun j hj => mem_needed.mpr ⟨hcolumns j hj, Or.inl hj⟩) hmem
  unfold finish
  simp only [pure_ok, ok_bind]
  split
  · rename_i hnone
    obtain rfl := List.isEmpty_iff.mp hnone
    exact ⟨none, rfl, rfl, by rintro c ⟨⟩⟩
  · rename_i hsome
    obtain ⟨picked, hpicked, hcap, hrows⟩ := pick_ok (s := { s with filters := none }) hread
    have hchunk : Chunk.ofVectors picked count =
        .ok ⟨picked, count, (picked.map ValueVector.capacity).min?.getD count, none⟩ := by
      rw [Chunk.ofVectors, if_neg]
      cases hmin : (picked.map ValueVector.capacity).min? with
      | none => exact Nat.lt_irrefl _
      | some n =>
        obtain ⟨v, hv, rfl⟩ := List.mem_map.mp (List.min?_mem hmin)
        rw [Option.getD_some, hcap v hv]
        exact Nat.lt_irrefl _
    have hverify : Selection.verify passed count = .ok () := by
      rw [Selection.verify, List.find?_eq_none.mpr fun i hi => by simp [hslots i (hmem i hi)]]
    rw [hpicked, ok_bind, hchunk, ok_bind, Chunk.slice, hverify, ok_bind]
    refine ⟨_, rfl, ?_, ?_⟩
    · have hmap : passed.mapM (fun i => picked.mapM (·.get? i)) =
          some (passed.map fun i => s.columns.map fun j => (row i).getD j .null) :=
        mapM_eq_map hrows
      simp only [Option.toList_some, ScanChunk.listing?, List.mapM_cons, List.mapM_nil,
        ScanChunk.numbered?, Chunk.slots, Option.getD_some]
      have hchunk : passed.mapM (Chunk.atSlot? ⟨picked, passed.length,
          (picked.map ValueVector.capacity).min?.getD count, some passed⟩) =
          some (passed.map fun i => s.columns.map fun j => (row i).getD j .null) := hmap
      rw [hchunk]
      simp [numbered, List.zip_map']
    · intro c hc
      obtain rfl := Option.some.inj hc
      exact fun hnil => hsome (List.isEmpty_iff.mpr (List.map_eq_nil_iff.mp hnil))

/-- **The columns that are read** hold what a reader of each row gets. -/
theorem readColumns_ok (h : s.table.Legible source) {start count : Nat} {columns : List Nat}
    {vectors : List (Nat × ValueVector)}
    (hok : (s.readColumns source start count columns).result = .ok vectors) :
    ∀ j ∈ columns, ∃ v, vectors.lookup j = some v ∧ v.Sound ∧ s.table.types[j]? = some v.type ∧
      v.capacity = count ∧ ∀ i, i < count → ∃ x,
        s.table.value source j (start + i) s.snapshot = .ok x ∧ v.get? i = some x := by
  induction columns generalizing vectors with
  | nil => simp
  | cons k rest ih =>
    rw [readColumns] at hok
    simp only [Reading.result_bind, Reading.result_of] at hok
    obtain ⟨c, hc, hok⟩ := bind_eq_ok.mp hok
    obtain ⟨v, hv, hok⟩ := bind_eq_ok.mp hok
    obtain ⟨more, hmore, hok⟩ := bind_eq_ok.mp hok
    obtain rfl := Except.ok.inj hok
    have hcolumn := Table.column_eq_ok.mp hc
    have hlegible := h.columns c (List.mem_of_getElem? hcolumn)
    obtain ⟨hs, htype, hcap, hget⟩ := Column.scan_values hlegible hv
    obtain ⟨-, -, hcolumntype, -⟩ := Table.holds_of_some h.sound hcolumn
    intro j hj
    rw [List.lookup_cons]
    split
    · rename_i heq
      obtain rfl := eq_of_beq heq
      refine ⟨v, rfl, hs, hcolumntype.trans (congrArg some htype.symm), hcap, fun i hi => ?_⟩
      obtain ⟨x, hx, hgx⟩ := hget i hi
      exact ⟨x, (Table.value_of_some hcolumn _ _ _).trans hx, hgx⟩
    · rename_i hne
      exact ih hmore j ((List.mem_cons.mp hj).resolve_left (by simpa using hne))

/-- The columns that are read hold the rows that are seen. -/
theorem holding_ok (h : s.table.Legible source) {start count : Nat}
    {vectors : List (Nat × ValueVector)}
    (hok : (s.readColumns source start count s.needed).result = .ok vectors) :
    Holding s.table.types vectors s.needed count (s.table.visibleAmong s.snapshot start count)
      fun i => (s.table.row? source s.snapshot (start + i)).getD [] := by
  intro j hj
  obtain ⟨v, hv, hs, htype, hcap, hget⟩ := readColumns_ok h hok j hj
  refine ⟨v, hv, hs, htype, hcap, fun i hi => ?_⟩
  obtain ⟨hlt, hp⟩ := List.mem_filter.mp hi
  obtain ⟨x, hx, hgx⟩ := hget i (List.mem_range.mp hlt)
  obtain ⟨row, hrow, -, hrow'⟩ := Table.row?_of_visible h hp
  dsimp only
  rw [hrow, Option.getD_some]
  exact hgx.trans (congrArg some (Except.ok.inj (hx.symm.trans (hrow' j (mem_needed.mp hj).1))))

/-- The rows of a part that a scan is to give. -/
theorem filterMap_row? (h : s.table.Legible source) (start count : Nat) :
    (List.range' start count).filterMap
        (fun r => (s.row? source r).map (numbered s.columns r)) =
      ((s.table.visibleAmong s.snapshot start count).filter fun i =>
        s.admits ((s.table.row? source s.snapshot (start + i)).getD [])).map fun i =>
          numbered s.columns (start + i)
            ((s.table.row? source s.snapshot (start + i)).getD []) := by
  rw [List.range'_eq_map_range, List.filterMap_map, Table.visibleAmong, List.filter_filter]
  refine filterMap_eq_map_filter (fun i _ hp => ?_) fun i _ hp => ?_
  · obtain ⟨hadmits, hseen⟩ := Bool.and_eq_true_iff.mp hp
    obtain ⟨row, hrow, -⟩ := Table.row?_of_visible h hseen
    rw [hrow, Option.getD_some] at hadmits ⊢
    rw [Function.comp_apply, row?, hrow, Option.filter_some, if_pos hadmits]
    rfl
  · rw [Function.comp_apply, row?]
    cases hrow : s.table.row? source s.snapshot (start + i) with
    | none => rfl
    | some row =>
      have hseen : (s.table.stamps? (start + i)).any (·.isVisible s.snapshot) = true := by
        by_contra hhidden
        rw [Table.row?_of_hidden (Bool.eq_false_iff.mpr hhidden)] at hrow
        cases hrow
      rw [hrow, Option.getD_some, hseen, Bool.and_true] at hp
      rw [Option.filter_some, if_neg (Bool.eq_false_iff.mp hp)]
      rfl

/-- **A part of the committed rows** that is read lists those that are seen and admitted. -/
theorem readPart_ok (h : s.table.Legible source) (hbound : s.Bound)
    (hcolumns : ∀ j ∈ s.columns, j < s.table.definitions.length) {start count : Nat}
    {part : Option ScanChunk} (hok : (s.readPart source start count).result = .ok part) :
    ScanChunk.listing? part.toList = some ((List.range' start count).filterMap fun r =>
      (s.row? source r).map (numbered s.columns r)) ∧ ∀ c ∈ part, c.ids ≠ [] := by
  rw [readPart] at hok
  simp only [Reading.result_bind, Reading.result_of] at hok
  obtain ⟨visible, hv, hok⟩ := bind_eq_ok.mp hok
  have hseen : s.table.versions.visible? start count s.snapshot = some visible := by
    unfold Table.present at hv
    split at hv
    · rename_i a ha
      exact ha.trans (congrArg some (Except.ok.inj hv))
    · cases hv
  obtain ⟨-, rfl⟩ := Table.visible?_ok hseen
  rw [filterMap_row? h]
  split at hok
  · rename_i hnone
    obtain rfl := Except.ok.inj hok
    rw [List.isEmpty_iff.mp hnone]
    exact ⟨rfl, by rintro c ⟨⟩⟩
  · rw [Reading.result_bind] at hok
    obtain ⟨vectors, hvectors, hok⟩ := bind_eq_ok.mp hok
    obtain ⟨part', hpart, hlisting⟩ := finish_ok hbound hcolumns (holding_ok h hvectors)
      (fun i hi => Table.lt_of_mem_visibleAmong hi) start
    obtain rfl := Except.ok.inj (hpart.symm.trans hok)
    exact hlisting

theorem canBeNew_of_room {t : ColumnType} {n : Nat} (h : Chunk.rowBytes * n ≤ Bytes.longest) :
    ValueVector.canBeNew t n = true := by
  have hroom : ∀ t, ValueVector.hasRoom t n = true := fun t => by
    have hle : ValueVector.slotBytes t ≤ Chunk.rowBytes := by
      cases t <;> simp [ValueVector.slotBytes, Chunk.rowBytes]
    exact decide_eq_true (Nat.le_trans (Nat.mul_le_mul_right n hle) h)
  induction t with
  | list item ih => rw [ValueVector.canBeNew, hroom, ih, Bool.and_self]
  | _ => exact hroom _

/-- **Columns can be read** where memory suffices. -/
theorem readColumns_total (h : s.table.Legible source) {start count : Nat}
    (hstop : start + count ≤ s.table.rows) (hword : s.table.rows < UInt64.size)
    (hroom : Chunk.rowBytes * s.table.rows ≤ Bytes.longest) (columns : List Nat)
    (hcolumns : ∀ j ∈ columns, j < s.table.definitions.length) :
    ∃ vectors, (s.readColumns source start count columns).result = .ok vectors := by
  induction columns with
  | nil => exact ⟨[], rfl⟩
  | cons k rest ih =>
    obtain ⟨vectors, hvectors⟩ := ih fun j hj => hcolumns j (List.mem_cons_of_mem _ hj)
    obtain ⟨c, hc⟩ : ∃ c, s.table.columns[k]? = some c := ⟨_, List.getElem?_eq_getElem
      ((Table.length_columns h.sound).symm ▸ hcolumns k List.mem_cons_self)⟩
    obtain ⟨d, -, -, hd⟩ := Table.holds_of_some h.sound hc
    have hrange : c.checkRange start count = .ok () := by
      rw [Column.checkRange, if_neg (by omega), if_neg (by rw [hd.rows_eq]; omega)]
    have hnew : ValueVector.canBeNew c.type count = true :=
      canBeNew_of_room (Nat.le_trans (Nat.mul_le_mul_left _ (by omega)) hroom)
    obtain ⟨v, hv, -⟩ := Column.scan_ok (h.columns c (List.mem_of_getElem? hc)) hnew hrange
      s.snapshot
    refine ⟨(k, v) :: vectors, ?_⟩
    rw [readColumns]
    simp only [Reading.result_bind, Reading.result_of, Table.column_eq_ok.mpr hc, ok_bind, hv,
      hvectors, Reading.result_pure]

/-- **A part of the committed rows can be read** where memory suffices. -/
theorem readPart_total (h : s.table.Legible source) (hbound : s.Bound)
    (hcolumns : ∀ j ∈ s.columns, j < s.table.definitions.length) {start count : Nat}
    (hstop : start + count ≤ s.table.rows) (hword : s.table.rows < UInt64.size)
    (hroom : Chunk.rowBytes * s.table.rows ≤ Bytes.longest) :
    ∃ part, (s.readPart source start count).result = .ok part := by
  have hseen := Table.visible?_eq (s := s.snapshot) hstop
  obtain ⟨vectors, hvectors⟩ := readColumns_total h hstop hword hroom s.needed
    fun j hj => (mem_needed.mp hj).1
  obtain ⟨part, hpart, -⟩ := finish_ok hbound hcolumns (holding_ok h hvectors)
    (fun i hi => Table.lt_of_mem_visibleAmong hi) start
  rw [readPart]
  simp only [Reading.result_bind, Reading.result_of, hseen, Table.present, ok_bind]
  split
  · exact ⟨none, rfl⟩
  · exact ⟨part, by rw [Reading.result_bind, hvectors]; exact hpart⟩

/-- **A copy of local rows** holds their values. -/
theorem localColumns_ok {l : LocalRows} {types : List ColumnType} (h : l.Sound types)
    (columns : List Nat) (hcolumns : ∀ j ∈ columns, j < types.length) {start count : Nat}
    (hstop : start + count ≤ l.count) :
    ∃ vectors, localColumns l start count columns = .ok vectors ∧
      ∀ j ∈ columns, ∃ v, vectors.lookup j = some v ∧ v.Sound ∧ types[j]? = some v.type ∧
        v.capacity = count ∧ ∀ i, i < count → v.get? i = l.get? j (start + i) := by
  have hcopy : ∀ j, j < types.length → ∃ v copy, l.columns[j]? = some v ∧
      (ValueVector.new v.type count).copyRows 0 v (List.range' start count) = (.ok (), copy) ∧
      copy.Sound ∧ types[j]? = some copy.type ∧ copy.capacity = count ∧
      ∀ i, i < count → copy.get? i = l.get? j (start + i) := by
    intro j hj
    obtain ⟨v, hv, hs, htype, -, hcap⟩ := h.column (List.getElem?_eq_getElem hj)
    have hplain : v.type.isNested = false := by
      cases v with
      | flat t marks slots => exact hs.1
      | list => exact hs.elim
    have hnew := ValueVector.sound_new hplain count
    obtain ⟨values, hlists, hfits⟩ : ∃ values, v.Lists (List.range' start count) values ∧
        ∀ x ∈ values, x.fits v.type = true := by
      refine ValueVector.exists_lists fun r hr => ?_
      obtain ⟨-, hr⟩ := List.mem_range'_1.mp hr
      exact ValueVector.get?_of_lt hs (Nat.lt_of_lt_of_le hr (Nat.le_trans hstop hcap))
    have hroom : 0 + (List.range' start count).length ≤ (ValueVector.new v.type count).capacity := by
      simp
    have hok := ValueVector.copyRows_ok hnew hlists hroom fun x hx =>
      (ValueVector.type_new v.type count).symm ▸ hfits x hx
    obtain ⟨hextends, hvalues⟩ := ValueVector.copyRows_cases hnew 0 v (List.range' start count)
    obtain ⟨values, hl, -, -, hholds⟩ := hvalues hok
    have hcopied := hextends.type_eq.trans ((ValueVector.type_new v.type count).trans htype)
    refine ⟨v, _, hv, Prod.ext hok rfl, hextends.sound, ?_,
      hextends.capacity_eq.trans (ValueVector.capacity_new _ _), fun i hi => ?_⟩
    · rw [hcopied]
      exact List.getElem?_eq_getElem hj
    obtain ⟨x, hx, -⟩ := ValueVector.get?_of_lt hs (i := start + i) (by omega)
    have hplace : (List.range' start count)[i]? = some (start + i) := by
      rw [List.getElem?_range' (by omega), Nat.one_mul]
    rw [← Nat.zero_add i, hholds i x ((hl.getElem?_eq hplace).trans hx), LocalRows.get?, hv,
      Nat.zero_add]
    exact hx.symm
  induction columns with
  | nil => exact ⟨[], rfl, by simp⟩
  | cons k rest ih =>
    obtain ⟨vectors, hvectors, hall⟩ := ih fun j hj => hcolumns j (List.mem_cons_of_mem _ hj)
    obtain ⟨v, copy, hv, hc, hcopied⟩ := hcopy k (hcolumns k List.mem_cons_self)
    refine ⟨(k, copy) :: vectors, ?_, fun j hj => ?_⟩
    · rw [localColumns] at hvectors ⊢
      rw [List.mapM_cons, hvectors, hv]
      dsimp only
      rw [hc]
      rfl
    · rw [List.lookup_cons]
      split
      · rename_i heq
        obtain rfl := eq_of_beq heq
        exact ⟨copy, rfl, hcopied⟩
      · rename_i hne
        exact hall j ((List.mem_cons.mp hj).resolve_left (by simpa using hne))

/-- **A part of the local rows** is read, and lists those that are not deleted and admitted. -/
theorem readLocal_ok (hbound : s.Bound)
    (hcolumns : ∀ j ∈ s.columns, j < s.table.definitions.length) {l : LocalRows}
    (h : l.Sound s.table.types) {start count : Nat} (hstop : start + count ≤ l.count) :
    ∃ part, s.readLocal l start count = .ok part ∧
      ScanChunk.listing? part.toList = some ((List.range' start count).filterMap fun r =>
        (s.ownRow? l r).map (numbered s.columns (firstLocalRow + r))) ∧
      ∀ c ∈ part, c.ids ≠ [] := by
  have hlength : s.table.types.length = s.table.definitions.length := List.length_map _
  obtain ⟨vectors, hvectors, hall⟩ := localColumns_ok h s.needed (fun j hj =>
    hlength ▸ (mem_needed.mp hj).1) hstop
  generalize hpresent : (List.range count).filter (fun i => !l.isDeleted (start + i)) = present
  have hlt : ∀ i ∈ present, i < count := fun i hi =>
    List.mem_range.mp (List.mem_filter.mp (hpresent ▸ hi)).1
  have hrow : ∀ i, i < count → ∃ row, l.row? (start + i) = some row ∧
      FitsTypes row s.table.types ∧ ∀ j x, row[j]? = some x → l.get? j (start + i) = some x :=
    fun i hi => h.row? (Nat.lt_of_lt_of_le (Nat.add_lt_add_left hi _) hstop)
  have hlist : (List.range' start count).filterMap
      (fun r => (s.ownRow? l r).map (numbered s.columns (firstLocalRow + r))) =
      (present.filter fun i => s.admits ((l.row? (start + i)).getD [])).map fun i =>
        numbered s.columns (firstLocalRow + start + i) ((l.row? (start + i)).getD []) := by
    rw [List.range'_eq_map_range, List.filterMap_map, ← hpresent, List.filter_filter]
    refine filterMap_eq_map_filter (fun i hi hp => ?_) fun i hi hp => ?_
    all_goals
      obtain ⟨row, hrow, -⟩ := hrow i (List.mem_range.mp hi)
      rw [hrow, Option.getD_some] at hp
      rw [Function.comp_apply, ownRow?, hrow]
    · obtain ⟨hadmits, hkept⟩ := Bool.and_eq_true_iff.mp hp
      rw [if_neg (by simpa using hkept), Option.filter_some, if_pos hadmits, Nat.add_assoc]
      rfl
    · cases hdeleted : l.isDeleted (start + i) with
      | true => rfl
      | false =>
        rw [hdeleted, Bool.not_false, Bool.and_true] at hp
        rw [if_neg Bool.false_ne_true, Option.filter_some, if_neg (Bool.eq_false_iff.mp hp)]
        rfl
  have hholding : Holding s.table.types vectors s.needed count present
      fun i => (l.row? (start + i)).getD [] := by
    intro j hj
    obtain ⟨v, hv, hs, htype, hcap, hget⟩ := hall j hj
    refine ⟨v, hv, hs, htype, hcap, fun i hi => ?_⟩
    obtain ⟨row, hrow, hfits, hvalues⟩ := hrow i (hlt i hi)
    have hj' : j < row.length := by
      rw [List.Forall₂.length_eq hfits, hlength]
      exact (mem_needed.mp hj).1
    dsimp only
    rw [hget i (hlt i hi), hrow, Option.getD_some, hvalues j _ (List.getElem?_eq_getElem hj'),
      List.getD_eq_getElem?_getD, List.getElem?_eq_getElem hj']
    rfl
  obtain ⟨part, hpart, hlisting⟩ :=
    finish_ok hbound hcolumns hholding hlt (firstLocalRow + start)
  rw [hlist, readLocal, hpresent]
  split
  · rename_i hnone
    rw [List.isEmpty_iff.mp hnone]
    exact ⟨none, rfl, rfl, by rintro c ⟨⟩⟩
  · exact ⟨part, by rw [hvectors]; exact hpart, hlisting⟩

/-- **Parts that are read one after the other** list all that each of them lists. -/
theorem readAll_ok {read : Nat → Nat → Reading (Option ScanChunk)}
    {line : Nat → Option (Nat × Row)} {parts : List (Nat × Nat)}
    (h : ∀ p ∈ parts, ∀ part, (read p.1 p.2).result = .ok part →
      ScanChunk.listing? part.toList = some ((List.range' p.1 p.2).filterMap line) ∧
        ∀ c ∈ part, c.ids ≠ [])
    {chunks : List ScanChunk} (hok : (s.readAll read parts).result = .ok (.ok chunks)) :
    ScanChunk.listing? chunks =
        some ((parts.flatMap fun p => List.range' p.1 p.2).filterMap line) ∧
      ∀ c ∈ chunks, ∃ p ∈ parts, c.Covers line p := by
  induction parts generalizing chunks with
  | nil =>
    obtain rfl := Except.ok.inj (Except.ok.inj hok)
    exact ⟨rfl, by rintro c ⟨⟩⟩
  | cons p rest ih =>
    unfold readAll at hok
    split at hok
    · cases Except.ok.inj hok
    · simp only [Reading.result_bind, Reading.result_attempt, ok_bind] at hok
      cases hread : (read p.1 p.2).result with
      | error e =>
        rw [hread] at hok
        cases Except.ok.inj hok
      | ok part =>
        rw [hread] at hok
        dsimp only at hok
        rw [Reading.result_bind] at hok
        obtain ⟨more, hmore, hok⟩ := bind_eq_ok.mp hok
        obtain ⟨chunks', rfl, rfl⟩ := map_eq_ok.mp (Except.ok.inj hok)
        obtain ⟨hlisting, hcovers⟩ := ih (fun q hq => h q (List.mem_cons_of_mem _ hq)) hmore
        obtain ⟨hlist, hne⟩ := h p List.mem_cons_self part hread
        rw [List.flatMap_cons, List.filterMap_append]
        refine ⟨ScanChunk.listing?_append hlist hlisting, fun c hc => ?_⟩
        rcases List.mem_append.mp hc with hc | hc
        · obtain rfl := Option.mem_toList.mp hc
          exact ⟨p, List.mem_cons_self, hne c rfl, hlist⟩
        · obtain ⟨q, hq, hc⟩ := hcovers c hc
          exact ⟨q, List.mem_cons_of_mem _ hq, hc⟩

/-- **Parts that can all be read** are read, unless the scan is cancelled. -/
theorem readAll_total (read : Nat → Nat → Reading (Option ScanChunk)) (parts : List (Nat × Nat))
    (hc : s.cancel.raised = false)
    (h : ∀ p ∈ parts, ∃ part, (read p.1 p.2).result = .ok part) :
    ∃ chunks, (s.readAll read parts).result = .ok (.ok chunks) := by
  induction parts with
  | nil => exact ⟨[], rfl⟩
  | cons p rest ih =>
    obtain ⟨part, hpart⟩ := h p List.mem_cons_self
    obtain ⟨chunks, hchunks⟩ := ih fun q hq => h q (List.mem_cons_of_mem _ hq)
    refine ⟨part.toList ++ chunks, ?_⟩
    unfold readAll
    rw [if_neg (by simp [hc])]
    simp only [Reading.result_bind, Reading.result_attempt, ok_bind, hpart, hchunks]
    rfl

/-! ## The whole scan -/

theorem of_mem_pieces {step start stop : Nat} (hstep : 0 < step) {p : Nat × Nat}
    (h : p ∈ pieces step start stop) :
    start ≤ p.1 ∧ p.1 < stop ∧ p.1 + p.2 ≤ stop ∧ p.2 ≤ step := by
  obtain ⟨i, hi, rfl⟩ := List.mem_map.mp h
  have hlt := List.mem_range.mp hi
  have hmul : i * step + step ≤ stop - start + step - 1 := by
    rw [← Nat.succ_mul]
    exact (Nat.le_div_iff_mul_le hstep).mp hlt
  dsimp only
  omega

/-- Segments without gaps have all rows. -/
theorem flatMap_segments {segments : List Segment} {start stop : Nat}
    (h : Column.Contiguous start segments stop) :
    segments.flatMap (fun s => List.range' s.start (s.stop - s.start)) =
      List.range' start (stop - start) := by
  induction segments generalizing start with
  | nil =>
    obtain rfl : start = stop := h
    simp
  | cons s rest ih =>
    obtain ⟨rfl, hrest⟩ := h
    have hle := hrest.le
    have hs : s.start ≤ s.stop := Nat.le_add_right _ _
    rw [List.flatMap_cons, ih hrest]
    have hmid : s.start + (s.stop - s.start) = s.stop := by omega
    have hsum : s.stop - s.start + (stop - s.stop) = stop - s.start := by omega
    rw [← hsum, ← List.range'_append_1, hmid]

/-- The filters rule a segment out. -/
def skips (s : Scan) (i : Nat) : Bool := s.filters.any fun b => b.prune s.table i == .alwaysFalse

theorem plan_eq (s : Scan) : s.plan = (s.table.segmentRanges.zipIdx.filter fun p => !s.skips p.2).flatMap
    fun p => pieces s.step p.1.1 p.1.2 := by
  unfold plan skips
  cases s.filters <;> rfl

/-- What is left out of a list does not matter where it comes to nothing. -/
theorem flatMap_filter_eq {α β : Type} {p : α → Bool} {f : α → List β} {xs : List α}
    (h : ∀ x ∈ xs, p x = false → f x = []) : (xs.filter p).flatMap f = xs.flatMap f := by
  induction xs with
  | nil => rfl
  | cons x rest ih =>
    have hrest := ih fun y hy => h y (List.mem_cons_of_mem _ hy)
    cases hx : p x with
    | true => rw [List.filter_cons_of_pos hx, List.flatMap_cons, List.flatMap_cons, hrest]
    | false =>
      rw [List.filter_cons_of_neg (Bool.eq_false_iff.mp hx), List.flatMap_cons,
        h x List.mem_cons_self hx, hrest, List.nil_append]

/-- A scan that can be run: its table can be read, and in the segments that it does not read there is
no row that it is to give. -/
structure Fair (s : Scan) (source : Source) : Prop where
  legible : s.table.Legible source
  columns : s.table.columns ≠ []
  bound : s.Bound
  skipped : ∀ i p, s.table.segmentRanges[i]? = some p → s.skips i = true →
    ∀ r, p.1 ≤ r → r < p.2 → s.row? source r = none
  step : 0 < s.step
  within : ∀ j ∈ s.columns, j < s.table.definitions.length
  locals : ∀ l, s.localRows = some l → l.Sound s.table.types

/-- The parts of a plan are parts of segments. -/
theorem Fair.of_mem_plan (h : s.Fair source) {p : Nat × Nat} (hp : p ∈ s.plan) :
    p.2 ≤ s.step ∧ p.1 < s.table.rows ∧ p.1 + p.2 ≤ s.table.rows ∧
      ∃ q ∈ s.table.segmentRanges, q.1 ≤ p.1 ∧ p.1 + p.2 ≤ q.2 := by
  obtain ⟨c, more, hc⟩ := List.exists_cons_of_ne_nil h.columns
  obtain ⟨d, -, -, hd⟩ := Table.holds_of_some h.legible.sound (i := 0) (c := c) (by rw [hc]; rfl)
  rw [plan_eq] at hp
  obtain ⟨⟨q, i⟩, hq, hp⟩ := List.mem_flatMap.mp hp
  have hq : q ∈ s.table.segmentRanges := List.fst_mem_of_mem_zipIdx (List.mem_filter.mp hq).1
  obtain ⟨hstart, hlt, hle, hstep⟩ := of_mem_pieces h.step hp
  have hstop : q.2 ≤ s.table.rows := by
    rw [Table.segmentRanges, hc] at hq
    obtain ⟨segment, hsegment, rfl⟩ := List.mem_map.mp hq
    exact hd.rows_eq ▸ Column.stop_le_of_contiguous hd.sound.contiguous hsegment
  exact ⟨hstep, Nat.lt_of_lt_of_le hlt hstop, Nat.le_trans hle hstop, q, hq, hstart, hle⟩

/-- **The parts of a plan** have all rows that are to be given. -/
theorem Fair.filterMap_plan (h : s.Fair source) {α : Type} (f : Nat → Row → α) :
    (s.plan.flatMap fun p => List.range' p.1 p.2).filterMap (fun r => (s.row? source r).map (f r)) =
      (List.range s.table.rows).filterMap fun r => (s.row? source r).map (f r) := by
  obtain ⟨c, more, hc⟩ := List.exists_cons_of_ne_nil h.columns
  obtain ⟨d, -, -, hd⟩ := Table.holds_of_some h.legible.sound (i := 0) (c := c) (by rw [hc]; rfl)
  have hranges : s.table.segmentRanges = c.segments.map fun s => (s.start, s.stop) := by
    rw [Table.segmentRanges, hc]
  have hall : s.table.segmentRanges.flatMap (fun q => List.range' q.1 (q.2 - q.1)) =
      List.range s.table.rows := by
    rw [hranges, List.flatMap_map, flatMap_segments hd.sound.contiguous, Nat.sub_zero, hd.rows_eq,
      List.range_eq_range']
  have hnumbered : s.table.segmentRanges.flatMap (fun q => List.range' q.1 (q.2 - q.1)) =
      s.table.segmentRanges.zipIdx.flatMap fun p => List.range' p.1.1 (p.1.2 - p.1.1) := by
    conv_lhs => rw [← List.zipIdx_map_fst 0 s.table.segmentRanges, List.flatMap_map]
  rw [← hall, hnumbered, plan_eq, List.flatMap_assoc]
  simp only [flatMap_pieces h.step, List.filterMap_flatMap]
  refine flatMap_filter_eq fun p hp hskip => ?_
  have hq := List.mem_zipIdx_iff_getElem?.mp hp
  refine List.filterMap_eq_nil_iff.mpr fun r hr => ?_
  obtain ⟨hlow, hhigh⟩ := List.mem_range'_1.mp hr
  rw [h.skipped p.2 p.1 hq (by simpa using hskip) r hlow (by omega)]
  rfl

/-- The rows of the reader that a scan is to give, in their places. -/
def ownRows (s : Scan) : List (Option Row) :=
  (s.localRows.map fun l => (List.range l.count).map (s.ownRow? l)).getD []

/-- What a scan is to give, read row by row: the committed rows and then those of the reader, each under
its number. -/
def rowByRow (s : Scan) (source : Source) : List (Nat × Row) :=
  numberedFrom 0 s.columns ((List.range s.table.rows).map (s.row? source)) ++
    numberedFrom firstLocalRow s.columns s.ownRows

/-- A chunk as a scan gives it: not empty, not larger than a part, and with rows of one segment or of
the reader. -/
structure Gives (s : Scan) (c : ScanChunk) : Prop where
  nonempty : c.ids ≠ []
  length_le : c.ids.length ≤ s.step
  place : (∃ q ∈ s.table.segmentRanges, ∀ id ∈ c.ids, q.1 ≤ id ∧ id < q.2) ∨
    ∃ l, s.localRows = some l ∧ ∀ id ∈ c.ids, firstLocalRow ≤ id ∧ id < firstLocalRow + l.count

/-- **A scan** lists the rows that its snapshot sees and its filters admit, and then the local rows
that are not deleted and admitted. -/
theorem run_ok (h : s.Fair source) {chunks : List ScanChunk}
    (hok : (s.run source).result = .ok (.ok chunks)) :
    ScanChunk.listing? chunks = some (s.rowByRow source) ∧ ∀ c ∈ chunks, s.Gives c := by
  unfold run at hok
  simp only [Reading.result_bind, Reading.result_of] at hok
  obtain ⟨plan, hplan, hok⟩ := bind_eq_ok.mp hok
  obtain rfl : s.plan = plan := by
    rw [plan?] at hplan
    split at hplan
    · exact Except.ok.inj hplan
    · cases hplan
  obtain ⟨r, hcommitted, hok⟩ := bind_eq_ok.mp hok
  cases r with
  | error e => cases Except.ok.inj hok
  | ok committed =>
    obtain ⟨hlist, hcovers⟩ := readAll_ok (fun p _ part hpart =>
      readPart_ok h.legible h.bound h.within hpart) hcommitted
    have hfirst := numberedFrom_map_range' 0 s.columns (s.row? source) 0 s.table.rows
    simp only [Nat.zero_add] at hfirst
    rw [h.filterMap_plan, List.range_eq_range', ← hfirst, ← List.range_eq_range'] at hlist
    have hgives : ∀ c ∈ committed, s.Gives c := fun c hc => by
      obtain ⟨p, hp, hc⟩ := hcovers c hc
      obtain ⟨hstep, -, -, q, hq, hlow, hhigh⟩ := h.of_mem_plan hp
      obtain ⟨hlength, hids⟩ := hc.ids 0 fun r q hline => by
        obtain ⟨row, -, rfl⟩ := Option.map_eq_some_iff.mp hline
        exact (Nat.zero_add r).symm
      refine ⟨hc.nonempty, Nat.le_trans hlength hstep, Or.inl ⟨q, hq, fun id hid => ?_⟩⟩
      have hid := hids id hid
      omega
    dsimp only at hok
    rw [rowByRow, ownRows]
    cases hl : s.localRows with
    | none =>
      rw [hl] at hok
      obtain rfl := Except.ok.inj (Except.ok.inj hok)
      rw [hlist, Option.map_none, Option.getD_none]
      exact ⟨congrArg some (List.append_nil _).symm, hgives⟩
    | some l =>
      rw [hl] at hok
      dsimp only at hok
      rw [Reading.result_bind] at hok
      obtain ⟨own, hown, hok⟩ := bind_eq_ok.mp hok
      obtain ⟨ownChunks, rfl, rfl⟩ := map_eq_ok.mp (Except.ok.inj hok)
      obtain ⟨hlocal, hcovers⟩ := readAll_ok (fun p hp part hpart => by
        obtain ⟨part', hpart', hlisting⟩ := readLocal_ok h.bound h.within (h.locals l hl)
          (of_mem_pieces h.step hp).2.2.1
        obtain rfl := Except.ok.inj (hpart'.symm.trans hpart)
        exact hlisting) hown
      have hsecond := numberedFrom_map_range' firstLocalRow s.columns (s.ownRow? l) 0 l.count
      rw [flatMap_pieces h.step, Nat.sub_zero, ← hsecond, ← List.range_eq_range'] at hlocal
      refine ⟨ScanChunk.listing?_append hlist hlocal, fun c hc => ?_⟩
      rcases List.mem_append.mp hc with hc | hc
      · exact hgives c hc
      · obtain ⟨p, hp, hc⟩ := hcovers c hc
        obtain ⟨-, -, hstop, hstep⟩ := of_mem_pieces h.step hp
        obtain ⟨hlength, hids⟩ := hc.ids firstLocalRow fun r q hline => by
          obtain ⟨row, -, rfl⟩ := Option.map_eq_some_iff.mp hline
          rfl
        refine ⟨hc.nonempty, Nat.le_trans hlength hstep, Or.inr ⟨l, hl, fun id hid => ?_⟩⟩
        have hid := hids id hid
        omega

/-- **A scan comes to its end** if nobody cancels it and numbers and memory suffice. -/
theorem run_total (h : s.Fair source) (hc : s.cancel.raised = false)
    (hword : s.table.rows + s.step < UInt64.size)
    (hroom : Chunk.rowBytes * s.table.rows ≤ Bytes.longest) :
    ∃ chunks, (s.run source).result = .ok (.ok chunks) := by
  have hplan : s.plan? = some s.plan := by
    rw [plan?, if_pos]
    refine List.all_eq_true.mpr fun p hp => decide_eq_true ?_
    have hlt := (h.of_mem_plan hp).2.1
    omega
  obtain ⟨committed, hcommitted⟩ := readAll_total (s.readPart source) s.plan hc fun p hp =>
    readPart_total h.legible h.bound h.within (h.of_mem_plan hp).2.2.1 (by omega) hroom
  unfold run
  simp only [Reading.result_bind, Reading.result_of, hplan, Table.present, ok_bind, hcommitted]
  cases hl : s.localRows with
  | none => exact ⟨committed, rfl⟩
  | some l =>
    obtain ⟨own, hown⟩ := readAll_total
      (fun start count => Reading.of (s.readLocal l start count)) (pieces s.step 0 l.count) hc
      fun p hp => by
        obtain ⟨part, hpart, -⟩ := readLocal_ok h.bound h.within (h.locals l hl)
          (of_mem_pieces h.step hp).2.2.1
        exact ⟨part, hpart⟩
    refine ⟨committed ++ own, ?_⟩
    dsimp only
    rw [Reading.result_bind, hown]
    rfl

/-- A scan is made for filters that can be bound, and for columns that are there. -/
theorem new_ok {t : Table} {snapshot : Snapshot} {columns : List Nat} {filters : List Filter}
    {localRows : Option LocalRows} {cancel : CancelFlag} {vectorSize : Nat}
    (hok : Scan.new t snapshot columns filters localRows cancel vectorSize = .ok s) :
    ∃ bound, BoundFilters.bind t filters = .ok bound ∧
      s = { table := t, snapshot, columns, filters := bound, localRows, cancel,
            step := max vectorSize 1 } ∧ ∀ j ∈ columns, j < t.definitions.length := by
  unfold Scan.new at hok
  split at hok
  · cases hok
  · rename_i hfind
    obtain ⟨bound, hbound, hok⟩ := bind_eq_ok.mp hok
    refine ⟨bound, hbound, (Except.ok.inj hok).symm, fun j hj => ?_⟩
    simpa using List.find?_eq_none.mp hfind j hj

/-! ## Scans without filters -/

/-- Without filters there is nothing that is not admitted or not read. -/
theorem row?_of_none (h : s.filters = none) (r : Nat) :
    s.row? source r = s.table.row? source s.snapshot r := by
  rw [row?]
  cases s.table.row? source s.snapshot r with
  | none => rfl
  | some row => rw [Option.filter_some, admits, h, Option.all_none, if_pos rfl]

end Scan

namespace Database

/-- **Every row of a sound database can be read.** -/
theorem Sound.legible {db : Database} {active : List Transaction} (h : db.Sound active) {id : Nat}
    {t : Table} (ht : db.catalog.tables[id]? = some t) : t.Legible db.source := by
  obtain ⟨hs, -⟩ := h.catalog.tables id t ht
  have hown := h.owned id t ht
  refine ⟨hs, fun c hc => ?_⟩
  obtain ⟨i, hi⟩ := List.mem_iff_getElem?.mp hc
  obtain ⟨d, -, htype, hd⟩ := Table.holds_of_some hs hi
  refine Column.legible hd.sound (d := db.disk) (fun row => ?_) ?_ fun row v hv => ?_
  · exact Column.under_congr (fun v hv => h.kept.load_eq (hown.safe.column hc v hv)) row
  · exact h.readable ht c hc
  · exact hown.fits i c.type htype row v (Table.chain_of_some hi row ▸ hv)

end Database

end ColumnStore
