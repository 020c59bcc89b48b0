/-
# Committing

The group of a commit has the changes of committed rows with the values as the transaction sees them
at the end, and then its local rows.  In the tables the rows are added first, and then every stamp
with the number of the transaction becomes the time of the commit; what is left is settled
(`Commits`).
-/

import ColumnStore.Database.Commit
import ColumnStore.Proofs.Database.Writing

namespace ColumnStore

namespace LocalRows

/-- A row that is there has a value of its type in every column. -/
theorem Sound.row? {l : LocalRows} {types : List ColumnType} (h : l.Sound types) {i : Nat}
    (hi : i < l.count) : ∃ row, l.row? i = some row ∧ FitsTypes row types ∧
      ∀ j x, row[j]? = some x → l.get? j i = some x := by
  have hle := h.count_le
  have hc := h.columns
  clear h
  simp only [LocalRows.row?, LocalRows.get?]
  generalize l.capacity = n, l.columns = columns at hle hc ⊢
  induction hc with
  | nil => exact ⟨[], rfl, .nil, by simp⟩
  | @cons v t vs ts hv _ ih =>
    have hcap := hle v List.mem_cons_self
    obtain ⟨x, hx, hfit⟩ := ValueVector.get?_of_lt hv.1 (i := i) (by omega)
    obtain ⟨row, hrow, hfits, hall⟩ := ih fun w hw => hle w (List.mem_cons_of_mem _ hw)
    refine ⟨x :: row, by rw [List.mapM_cons, hx, hrow]; rfl, .cons (hv.2.1 ▸ hfit) hfits,
      fun j y hy => ?_⟩
    cases j with
    | zero =>
      obtain rfl : x = y := by simpa using hy
      exact hx
    | succ j => exact hall j y (by simpa using hy)

/-- The rows that are not deleted, in order. -/
def liveRows (l : LocalRows) : List Row := l.live.filterMap l.row?

theorem forall₂_liveRows {l : LocalRows} {types : List ColumnType} (h : l.Sound types) :
    List.Forall₂ (fun i row => l.row? i = some row) l.live l.liveRows := by
  have hlt : ∀ i ∈ l.live, i < l.count := fun i hi =>
    List.mem_range.mp (List.mem_filter.mp hi).1
  unfold liveRows
  generalize l.live = live at hlt
  induction live with
  | nil => exact .nil
  | cons i rest ih =>
    obtain ⟨row, hrow, -⟩ := h.row? (hlt i List.mem_cons_self)
    rw [List.filterMap_cons_some hrow]
    exact .cons hrow (ih fun j hj => hlt j (List.mem_cons_of_mem _ hj))

/-- **The columns hold the rows.** -/
theorem holdRows_live {l : LocalRows} {types : List ColumnType} (h : l.Sound types) :
    HoldRows l.columns l.live l.liveRows ∧ (∀ row ∈ l.liveRows, FitsTypes row types) ∧
      (l.liveRows = [] ↔ l.live = []) := by
  have hrows := forall₂_liveRows h
  have hlt : ∀ i ∈ l.live, i < l.count := fun i hi =>
    List.mem_range.mp (List.mem_filter.mp hi).1
  refine ⟨⟨hrows.length_eq, fun j v hv => ?_⟩, fun row hr => ?_, ?_⟩
  · have htype : ∃ t, types[j]? = some t := by
      have hj := (List.getElem?_eq_some_iff.mp hv).1
      have hlen := h.columns.length_eq
      exact ⟨_, List.getElem?_eq_getElem (by omega)⟩
    obtain ⟨t, ht⟩ := htype
    unfold ValueVector.Lists columnOf
    generalize l.live = live, l.liveRows = rows at hrows hlt
    induction hrows with
    | nil => rfl
    | @cons i row live rows hrow _ ih =>
      obtain ⟨row', hrow', hfits, hget⟩ := h.row? (hlt i List.mem_cons_self)
      obtain rfl := Option.some.inj (hrow.symm.trans hrow')
      have hj : j < row.length := by
        have := (List.getElem?_eq_some_iff.mp ht).1
        have := hfits.length_eq
        omega
      have hvalue := hget j _ (List.getElem?_eq_getElem hj)
      rw [LocalRows.get?, hv] at hvalue
      simp only [List.map_cons]
      rw [ih fun k hk => hlt k (List.mem_cons_of_mem _ hk), List.getD_eq_getElem?_getD,
        List.getElem?_eq_getElem hj]
      exact congrArg (· :: _) hvalue
  · obtain ⟨k, hk, rfl⟩ := List.mem_iff_getElem.mp hr
    have hk' : k < l.live.length := by rw [hrows.length_eq]; exact hk
    have hrow := (List.forall₂_iff_get.mp hrows).2 k hk' hk
    obtain ⟨row', hrow', hfits, -⟩ := h.row? (hlt _ (List.getElem_mem hk'))
    rw [List.get_eq_getElem, List.get_eq_getElem] at hrow
    obtain rfl := Option.some.inj (hrow.symm.trans hrow')
    exact hfits
  · rw [← List.length_eq_zero_iff, ← List.length_eq_zero_iff, hrows.length_eq]

end LocalRows

namespace Session

/-! ## The group in the log -/

/-- What the transaction sees in a column of a row. -/
def valueOf (s : Session) (table : TableId) (column row : Nat) : Scalar :=
  match (s.table table).value s.database.disk.source column row s.transaction.snapshot with
  | .ok x => x
  | .error _ => .null

/-- The log entries for a change of committed rows. -/
def changeOf (s : Session) : UndoRecord → List LogEntry
  | .insert .. => []
  | .delete table rows =>
    if (committedRows rows).isEmpty then [] else [.delete (s.table table).name (committedRows rows)]
  | .update table column rows _ =>
    if (committedRows rows).isEmpty then []
    else [.update (s.table table).name column (committedRows rows)
      ((committedRows rows).map (s.valueOf table column))]

/-- The group of a commit. -/
def group (s : Session) (time : Stamp) : List LogEntry :=
  s.transaction.undo.flatMap s.changeOf ++ s.transaction.locals.filterMap s.insertEntry? ++
    [.commit time]

variable {s : Session} {others : List Transaction}

/-- A row that a transaction has written to is in the table. -/
theorem lt_of_images {x : Transaction} {db : Database} (h : db.Sound (x :: others))
    {table : TableId} {t : Table} (ht : db.catalog.tables[table]? = some t) {column row : Nat}
    (hcolumn : column < t.columns.length) (hi : x.images table column row ≠ []) :
    row < t.rows := by
  refine Nat.lt_of_not_le fun hle => ?_
  obtain ⟨hts, -⟩ := h.catalog.tables table t ht
  obtain ⟨d, -, -, hd⟩ := Table.holds_of_some hts (List.getElem?_eq_getElem hcolumn)
  have hnil := Column.chain_of_le (hd.rows_eq.symm ▸ hle)
  have hcell := (h.owned table t ht).cells column row
  obtain ⟨settled, values, hheld⟩ := hcell.held h.others_ne hi
  have hchain := hheld.chain_eq
  rw [Table.chain_of_some (List.getElem?_eq_getElem hcolumn), hnil] at hchain
  have hvalues := (List.append_eq_nil_iff.mp hchain.symm).2
  exact hheld.nonempty (List.map_eq_nil_iff.mp hvalues)

theorem map_fst_filter_zip {rows : List Nat} {before : List Scalar}
    (h : rows.length = before.length) :
    ((rows.zip before).filter (!isLocalRow ·.1)).map (·.1) = committedRows rows := by
  rw [committedRows, ← map_fst_zip h.symm, List.filter_map]
  rw [map_fst_zip h.symm]
  rfl

/-- What an update among the changes of a transaction says about its rows. -/
theorem of_update_mem {x : Transaction} {db : Database} (h : db.Sound (x :: others))
    {table : TableId} {column : Nat} {rows : List Nat} {before : List Scalar}
    (hm : UndoRecord.update table column rows before ∈ x.undo) :
    ∃ t, db.catalog.tables[table]? = some t ∧ column < t.columns.length ∧
      rows.length = before.length ∧
      ∀ row ∈ committedRows rows, x.images table column row ≠ [] ∧ row < t.rows := by
  obtain ⟨front, hlen, types, type, htypes, hc, -⟩ :=
    (h.recorded _ List.mem_cons_self).undoable.mem hm
  obtain ⟨t, ht⟩ := table_of_isSome (c := db.catalog) (by rw [htypes]; rfl)
  have hcolumn : column < t.columns.length := by
    obtain rfl := Option.some.inj (htypes.symm.trans (by rw [Catalog.types?, ht]; rfl))
    have := (List.getElem?_eq_some_iff.mp hc).1
    rw [Table.length_columns (h.catalog.tables table t ht).1]
    rwa [Table.types, List.length_map] at this
  refine ⟨t, ht, hcolumn, hlen, fun row hrow => ?_⟩
  have himages : x.images table column row ≠ [] := by
    rw [Transaction.images, Ne, valuesFor_eq_nil, not_not, List.map_flatMap]
    refine List.mem_flatMap.mpr ⟨_, hm, ?_⟩
    rw [UndoRecord.imagePairs, if_pos ⟨rfl, rfl⟩, map_fst_filter_zip hlen]
    exact hrow
  exact ⟨himages, lt_of_images h ht hcolumn himages⟩

theorem result_mapM {α β : Type} {f : α → Reading β} {g : α → β} {xs : List α}
    (h : ∀ a ∈ xs, (f a).result = .ok (g a)) : (xs.mapM f).result = .ok (xs.map g) := by
  induction xs with
  | nil => rfl
  | cons a rest ih =>
    rw [List.mapM_cons, Reading.result_bind, h a List.mem_cons_self, ok_bind, Reading.result_bind,
      ih fun b hb => h b (List.mem_cons_of_mem _ hb), ok_bind]
    rfl

/-- What a transaction sees in a row that it has written to. -/
theorem value_eq_valueOf (h : s.database.Sound (s.transaction :: others)) {table : TableId}
    {t : Table} (ht : s.database.catalog.tables[table]? = some t) {column row : Nat}
    (hcolumn : column < t.columns.length) (hrow : row < t.rows) :
    t.value s.database.disk.source column row s.transaction.snapshot =
      .ok (s.valueOf table column row) := by
  obtain ⟨x, hx⟩ := (h.owned table t ht).readable.value (h.catalog.tables table t ht).1 hcolumn
    hrow s.transaction.snapshot
  have htable : s.table table = t := Catalog.table_of_some ht
  rw [valueOf, htable, hx]

/-- **A change has its log entries.** -/
theorem changeEntry_ok (h : s.database.Sound (s.transaction :: others)) {change : UndoRecord}
    (hm : change ∈ s.transaction.undo) :
    (s.changeEntry s.database.source change).result = .ok (s.changeOf change) ∧
      (s.changeEntry s.database.source change).Honest s.database.source s.database.SafeFile := by
  cases change with
  | insert table start n => exact ⟨rfl, Reading.honest_pure _⟩
  | delete table rows => exact ⟨rfl, Reading.honest_pure _⟩
  | update table column rows before =>
    obtain ⟨t, ht, hcolumn, -, hrows⟩ := of_update_mem h hm
    have htable : s.table table = t := Catalog.table_of_some ht
    rw [changeEntry, changeOf, htable]
    by_cases hempty : (committedRows rows).isEmpty = true
    · rw [if_pos hempty, if_pos hempty]
      exact ⟨rfl, Reading.honest_pure _⟩
    · rw [if_neg hempty, if_neg hempty]
      refine ⟨?_, Reading.honest_bind (Reading.honest_mapM fun row _ =>
        Table.honest_fetch (h.owned table t ht).safe _ _ _) fun _ _ => Reading.honest_pure _⟩
      rw [Reading.result_bind, result_mapM (g := s.valueOf table column) fun row hrow => ?_, ok_bind,
        Reading.result_pure]
      have hlt := (hrows row hrow).2
      rw [Table.fetch_result _ _ hlt, ← value_eq_valueOf h ht hcolumn hlt, Table.value, Table.value,
        h.under_eq ht]

theorem changeEntries_ok (h : s.database.Sound (s.transaction :: others))
    {changes : List UndoRecord} (hm : ∀ change ∈ changes, change ∈ s.transaction.undo) :
    (s.changeEntries s.database.source changes).result = .ok (changes.flatMap s.changeOf) ∧
      (s.changeEntries s.database.source changes).Honest s.database.source
        s.database.SafeFile := by
  induction changes with
  | nil => exact ⟨rfl, Reading.honest_pure _⟩
  | cons change rest ih =>
    obtain ⟨he, hh⟩ := changeEntry_ok h (hm change List.mem_cons_self)
    obtain ⟨he', hh'⟩ := ih fun c hc => hm c (List.mem_cons_of_mem _ hc)
    refine ⟨?_, Reading.honest_bind hh fun _ _ => Reading.honest_bind hh' fun _ _ =>
      Reading.honest_pure _⟩
    rw [changeEntries, Reading.result_bind, he, ok_bind, Reading.result_bind, he', ok_bind]
    rfl

/-- **The group of a commit can be put together.** -/
theorem logEntries_ok (h : s.database.Sound (s.transaction :: others)) (time : Stamp) :
    (s.logEntries s.database.source time).result = .ok (s.group time) ∧
      (s.logEntries s.database.source time).Honest s.database.source s.database.SafeFile := by
  obtain ⟨he, hh⟩ := changeEntries_ok h fun c (hc : c ∈ s.transaction.undo) => hc
  refine ⟨?_, Reading.honest_bind hh fun _ _ => Reading.honest_pure _⟩
  rw [logEntries, Reading.result_bind, he, ok_bind]
  rfl

end Session

/-! ## The changes in the tables -/

/-- Two states of a catalog with a relation between the states of every table. -/
structure Catalog.Each (R : TableId → Table → Table → Prop) (c c' : Catalog) : Prop where
  names_eq : c'.names = c.names
  size_eq : c'.tables.size = c.tables.size
  tables : ∀ (j : Nat) (t : Table), c.tables[j]? = some t →
    ∃ t', c'.tables[j]? = some t' ∧ R j t t'

theorem Catalog.Each.trans {R S T : TableId → Table → Table → Prop} {a b c : Catalog}
    (h : Each R a b) (h' : Each S b c) (hT : ∀ j t t' t'', R j t t' → S j t' t'' → T j t t'') :
    Each T a c where
  names_eq := h'.names_eq.trans h.names_eq
  size_eq := h'.size_eq.trans h.size_eq
  tables j t ht := by
    obtain ⟨t', ht', hr⟩ := h.tables j t ht
    obtain ⟨t'', ht'', hs⟩ := h'.tables j t' ht'
    exact ⟨t'', ht'', hT j t t' t'' hr hs⟩

theorem Catalog.each_setTable {R : TableId → Table → Table → Prop} {c : Catalog} {id : TableId}
    {t t' : Table} (ht : c.tables[id]? = some t) (hr : R id t t')
    (hother : ∀ (j : Nat) (u : Table), j ≠ id → c.tables[j]? = some u → R j u u) :
    Each R c (c.setTable id t') where
  names_eq := rfl
  size_eq := Array.size_setIfInBounds
  tables j u hu := by
    rw [tables_setTable ht]
    by_cases hj : j = id
    · subst hj
      obtain rfl := Option.some.inj (ht.symm.trans hu)
      exact ⟨t', if_pos rfl, hr⟩
    · exact ⟨u, (if_neg hj).trans hu, hother j u hj hu⟩

theorem Catalog.Each.of_some {R : TableId → Table → Table → Prop} {c c' : Catalog} (h : Each R c c')
    {j : Nat} {t' : Table} (ht' : c'.tables[j]? = some t') :
    ∃ t, c.tables[j]? = some t ∧ R j t t' := by
  have ht := Array.getElem?_eq_getElem (h.size_eq ▸ lt_of_some ht' : j < c.tables.size)
  obtain ⟨u, hu, hr⟩ := h.tables j _ ht
  obtain rfl := Option.some.inj (ht'.symm.trans hu)
  exact ⟨_, ht, hr⟩

/-- **Other states of all tables, with the same names and columns.** -/
theorem Catalog.Sound.each {R : TableId → Table → Table → Prop} {c c' : Catalog} (h : c.Sound)
    (hc : Each R c c') (hR : ∀ (j : Nat) (t t' : Table), c.tables[j]? = some t → R j t t' →
      t'.Sound ∧ t'.name = t.name ∧ t'.definitions = t.definitions ∧ t'.dropped = t.dropped) :
    c'.Sound ∧ c'.types? = c.types? := by
  refine ⟨⟨fun j t' ht' => ?_, hc.names_eq ▸ h.names_nodup, fun name j hn => ?_,
    fun j t' ht' hd => ?_⟩, funext fun j => ?_⟩
  · obtain ⟨t, ht, hr⟩ := hc.of_some ht'
    obtain ⟨hs, -, hdefs, -⟩ := hR j t t' ht hr
    exact ⟨hs, hdefs ▸ (h.tables j t ht).2⟩
  · rw [hc.names_eq] at hn
    obtain ⟨t, ht, hname, hd⟩ := h.named name j hn
    obtain ⟨t', ht', hr⟩ := hc.tables j t ht
    obtain ⟨-, hname', -, hd'⟩ := hR j t t' ht hr
    exact ⟨t', ht', hname'.trans hname, hd'.trans hd⟩
  · obtain ⟨t, ht, hr⟩ := hc.of_some ht'
    obtain ⟨-, hname, -, hd'⟩ := hR j t t' ht hr
    rw [hc.names_eq, hname]
    exact h.unnamed j t ht (hd' ▸ hd)
  · rw [types?, types?]
    cases ht : c.tables[j]? with
    | none =>
      rw [Array.getElem?_eq_none_iff, ← hc.size_eq, ← Array.getElem?_eq_none_iff] at ht
      rw [ht]
    | some t =>
      obtain ⟨t', ht', hr⟩ := hc.tables j t ht
      rw [ht', Option.map_some, Option.map_some, Table.types, Table.types, (hR j t t' ht hr).2.2.1]

/-- The rows of a table that were written over by some changes of a column. -/
def updatedRows (table : TableId) (column : Nat) (changes : List UndoRecord) : List Nat :=
  (changes.flatMap (·.imagePairs table column)).map (·.1)

/-- What some changes of a transaction do to a table when they become those of a commit. -/
structure Table.Settles (id time : Stamp) (changes : List UndoRecord) (table : TableId)
    (t t' : Table) : Prop where
  keeps : Table.Keeps t t'
  stamps_eq : ∀ r, t'.stamps? r =
    if r ∈ changes.flatMap (·.deletedRows table) then
      (t.stamps? r).map (RowStamps.commitDelete id time)
    else t.stamps? r
  chain_eq : ∀ i r, t'.chain i r =
    if r ∈ updatedRows table i changes then (t.chain i r).map (Overlay.restamp id time)
    else t.chain i r

theorem Table.Settles.refl {t : Table} (h : t.Sound) (id time : Stamp) (table : TableId) :
    Settles id time [] table t t :=
  ⟨Keeps.refl h, fun _ => by simp, fun _ _ => by simp [updatedRows]⟩

theorem RowStamps.commitDelete_twice {id time : Stamp} (h : id ≠ time) (st : RowStamps) :
    (st.commitDelete id time).commitDelete id time = st.commitDelete id time := by
  unfold commitDelete
  by_cases hd : st.deleted = id
  · rw [if_pos hd, if_neg (show (st.withDeleted time).deleted ≠ id from Ne.symm h)]
  · rw [if_neg hd, if_neg hd]

theorem Table.Settles.cons {id time : Stamp} (hne : id ≠ time) {change : UndoRecord}
    {changes : List UndoRecord} {table : TableId} {t t' t'' : Table}
    (h : Settles id time [change] table t t') (h' : Settles id time changes table t' t'') :
    Settles id time (change :: changes) table t t'' := by
  refine ⟨h.keeps.trans h'.keeps, fun r => ?_, fun i r => ?_⟩
  · rw [h'.stamps_eq r, h.stamps_eq r]
    simp only [List.flatMap_cons, List.flatMap_nil, List.append_nil, List.mem_append]
    by_cases h₁ : r ∈ change.deletedRows table <;>
      by_cases h₂ : r ∈ changes.flatMap (·.deletedRows table) <;>
      simp only [h₁, h₂, if_true, if_false, or_self, or_true, true_or]
    cases t.stamps? r with
    | none => rfl
    | some st => exact congrArg some (RowStamps.commitDelete_twice hne st)
  · rw [h'.chain_eq i r, h.chain_eq i r]
    simp only [updatedRows, List.flatMap_cons, List.flatMap_nil, List.append_nil, List.map_append,
      List.mem_append]
    by_cases h₁ : r ∈ (change.imagePairs table i).map (·.1) <;>
      by_cases h₂ : r ∈ (changes.flatMap (·.imagePairs table i)).map (·.1) <;>
      simp only [h₁, h₂, if_true, if_false, or_self, or_true, true_or]
    exact map_restamp_twice hne _

/-- A change of rows that are there. -/
def UndoRecord.Within (c : Catalog) : UndoRecord → Prop
  | .insert .. => True
  | .delete table rows => ∃ t, c.tables[table]? = some t ∧ ∀ r ∈ committedRows rows, r < t.rows
  | .update table column rows before =>
    ∃ t, c.tables[table]? = some t ∧ column < t.columns.length ∧ rows.length = before.length ∧
      ∀ r ∈ committedRows rows, r < t.rows

theorem UndoRecord.Within.keeps {c c' : Catalog} {change : UndoRecord} (h : change.Within c)
    {R : TableId → Table → Table → Prop} (hc : Catalog.Each R c c')
    (hk : ∀ j t t', R j t t' → Table.Keeps t t') : change.Within c' := by
  cases change with
  | insert => trivial
  | delete table rows =>
    obtain ⟨t, ht, hrows⟩ := h
    obtain ⟨t', ht', hr⟩ := hc.tables table t ht
    exact ⟨t', ht', fun r hm => (hk _ _ _ hr).rows_eq ▸ hrows r hm⟩
  | update table column rows before =>
    obtain ⟨t, ht, hcolumn, hlen, hrows⟩ := h
    obtain ⟨t', ht', hr⟩ := hc.tables table t ht
    exact ⟨t', ht', (hk _ _ _ hr).columns.length_eq ▸ hcolumn, hlen,
      fun r hm => (hk _ _ _ hr).rows_eq ▸ hrows r hm⟩

namespace Session

/-- **A change is given the time of the commit.** -/
theorem applyChange_ok {db : Database} (hs : ∀ (j : Nat) (t : Table),
      db.catalog.tables[j]? = some t → t.Sound) {id time : Stamp} (hne : id ≠ time)
    {change : UndoRecord} (hw : change.Within db.catalog) :
    ∃ c', applyChange id time db change = (.ok (), { db with catalog := c' }) ∧
      Catalog.Each (Table.Settles id time [change]) db.catalog c' := by
  have hother : ∀ (table : TableId), (∀ j, j ≠ table → change.deletedRows j = [] ∧
      ∀ i, change.imagePairs j i = []) → ∀ (j : Nat) (u : Table), j ≠ table →
      db.catalog.tables[j]? = some u → Table.Settles id time [change] j u u := by
    intro table hnil j u hj hu
    obtain ⟨hd, hi⟩ := hnil j hj
    refine ⟨Table.Keeps.refl (hs j u hu), fun r => ?_, fun i r => ?_⟩
    · simp [hd]
    · simp [updatedRows, hi]
  cases change with
  | insert table start n =>
    refine ⟨db.catalog, rfl, rfl, rfl, fun j t ht => ⟨t, ht, Table.Keeps.refl (hs j t ht),
      fun r => ?_, fun i r => ?_⟩⟩
    · simp
    · simp [updatedRows]
  | delete table rows =>
    obtain ⟨t, ht, hrows⟩ := hw
    obtain ⟨t', he, hr⟩ := Table.commitDelete_ok (hs table t ht) hrows id time
    refine ⟨db.catalog.setTable table t', by rw [applyChange, Database.change_eq ht, he],
      Catalog.each_setTable ht ⟨hr.keeps, fun r => ?_, fun i r => ?_⟩ (hother table ?_)⟩
    · rw [hr.stamps_eq r]
      simp [UndoRecord.deletedRows]
    · simp [updatedRows, hr.chain_eq]
    · exact fun j hj => ⟨if_neg (Ne.symm hj), fun _ => rfl⟩
  | update table column rows before =>
    obtain ⟨t, ht, hcolumn, hlen, hrows⟩ := hw
    obtain ⟨t', he, hr⟩ := Table.commitUpdate_ok (hs table t ht) hcolumn hrows hne
    refine ⟨db.catalog.setTable table t', by rw [applyChange, Database.change_eq ht, he],
      Catalog.each_setTable ht ⟨hr.keeps, fun r => ?_, fun i r => ?_⟩ (hother table ?_)⟩
    · rw [hr.stamps_eq r]
      simp
    · rw [hr.chain_eq i r]
      simp only [updatedRows, List.flatMap_singleton, UndoRecord.imagePairs]
      by_cases hi : i = column
      · subst hi
        simp only [true_and, if_true, and_self, map_fst_filter_zip hlen]
      · simp [hi, Ne.symm hi]
    · exact fun j hj => ⟨rfl, fun i => if_neg fun hh => hj hh.1.symm⟩

/-- **All changes are given the time of the commit.** -/
theorem applyChanges_ok {db : Database} (hs : ∀ (j : Nat) (t : Table),
      db.catalog.tables[j]? = some t → t.Sound) {id time : Stamp} (hne : id ≠ time)
    {changes : List UndoRecord} (hw : ∀ change ∈ changes, change.Within db.catalog) :
    ∃ c', Attempt.all (applyChange id time) db changes = (.ok (), { db with catalog := c' }) ∧
      Catalog.Each (Table.Settles id time changes) db.catalog c' := by
  induction changes generalizing db with
  | nil =>
    exact ⟨db.catalog, rfl, rfl, rfl, fun j t ht =>
      ⟨t, ht, Table.Settles.refl (hs j t ht) id time j⟩⟩
  | cons change rest ih =>
    obtain ⟨c₁, he, h₁⟩ := applyChange_ok hs hne (hw change List.mem_cons_self)
    have hkeeps : ∀ j t t', Table.Settles id time [change] j t t' → Table.Keeps t t' :=
      fun _ _ _ h => h.keeps
    have hs₁ : ∀ (j : Nat) (t : Table),
        ({ db with catalog := c₁ } : Database).catalog.tables[j]? = some t → t.Sound := by
      intro j t ht
      have hlt : j < db.catalog.tables.size := by
        rw [← h₁.size_eq]
        exact Catalog.lt_of_some ht
      obtain ⟨t', ht', hset⟩ := h₁.tables j _ (Array.getElem?_eq_getElem hlt)
      obtain rfl := Option.some.inj (ht.symm.trans ht')
      exact hset.keeps.sound (hs j _ (Array.getElem?_eq_getElem hlt))
    obtain ⟨c', he', h'⟩ := ih hs₁ fun c hc =>
      (hw c (List.mem_cons_of_mem _ hc)).keeps h₁ hkeeps
    refine ⟨c', ?_, h₁.trans h' fun j t t' t'' ha hb => ha.cons hne hb⟩
    rw [Attempt.all, he]
    dsimp only
    rw [he']
    rfl

end Session

/-! ## The rows in the tables -/

namespace LocalTables

theorem get?_of_mem {locals : LocalTables} (h : (locals.map (·.1)).Nodup) {table : TableId}
    {l : LocalRows} (hm : (table, l) ∈ locals) : locals.get? table = some l := by
  induction locals with
  | nil => cases hm
  | cons p rest ih =>
    obtain ⟨t, r⟩ := p
    obtain ⟨hnot, hrest⟩ := List.nodup_cons.mp h
    rw [get?_cons]
    rcases List.mem_cons.mp hm with heq | hm
    · obtain ⟨rfl, rfl⟩ := Prod.mk.inj heq
      exact if_pos rfl
    · have hne : table ≠ t := fun he => hnot (he ▸ List.mem_map.mpr ⟨_, hm, rfl⟩)
      rw [if_neg hne]
      exact ih hrest hm

theorem get?_eq_none {locals : LocalTables} {table : TableId}
    (h : table ∉ locals.map (·.1)) : locals.get? table = none := by
  induction locals with
  | nil => rfl
  | cons p rest ih =>
    obtain ⟨t, r⟩ := p
    rw [List.map_cons, List.mem_cons, not_or] at h
    rw [get?_cons, if_neg h.1]
    exact ih h.2

end LocalTables

theorem Attempt.all_cons_eq_ok {ε σ α : Type} {step : σ → α → Attempt ε σ Unit} {s s' : σ} {a : α}
    {rest : List α} :
    Attempt.all step s (a :: rest) = (.ok (), s') ↔
      ∃ s₁, step s a = (.ok (), s₁) ∧ Attempt.all step s₁ rest = (.ok (), s') := by
  rw [Attempt.all]
  rcases step s a with ⟨r, s₁⟩
  rcases hall : Attempt.all step s₁ rest with ⟨later, s₂⟩
  cases r <;> cases later <;> simp [hall]

/-- What a table gains when a transaction commits: the local rows that are not deleted. -/
def Table.Gains (locals : LocalTables) (time : Stamp) (table : TableId) (t t' : Table) : Prop :=
  match locals.get? table with
  | none => t' = t
  | some l =>
    if l.live = [] then t' = t
    else ∃ range, t.append l.columns l.live time = (.ok range, t')

namespace Session

theorem applyLocals_ok {db db' : Database} {time : Stamp} {table : TableId} {l : LocalRows}
    {t : Table} (ht : db.catalog.tables[table]? = some t)
    (hok : applyLocals time db (table, l) = (.ok (), db')) :
    ∃ t', db' = { db with catalog := db.catalog.setTable table t' } ∧
      if l.live = [] then t' = t else ∃ range, t.append l.columns l.live time = (.ok range, t') := by
  unfold applyLocals at hok
  by_cases hempty : l.live = []
  · rw [if_pos (by rw [hempty]; rfl)] at hok
    refine ⟨t, ?_, by rw [if_pos hempty]⟩
    rw [Catalog.setTable_self ht]
    exact (Prod.mk.inj hok).2.symm
  · rw [if_neg (by simpa using hempty), Database.change_eq ht] at hok
    rcases ha : t.append l.columns l.live time with ⟨r, t'⟩
    rw [ha] at hok
    obtain ⟨hr, rfl⟩ := Prod.mk.inj hok
    cases r with
    | error e => cases hr
    | ok range => exact ⟨t', rfl, by rw [if_neg hempty]; exact ⟨range, rfl⟩⟩

/-- **The local rows are added to their tables.** -/
theorem applyAllLocals_ok {db db' : Database} {time : Stamp} {locals : LocalTables}
    (hnodup : (locals.map (·.1)).Nodup)
    (hin : ∀ table ∈ locals.map (·.1), ∃ t, db.catalog.tables[table]? = some t)
    (hok : Attempt.all (applyLocals time) db locals = (.ok (), db')) :
    db' = { db with catalog := db'.catalog } ∧
      Catalog.Each (Table.Gains locals time) db.catalog db'.catalog := by
  induction locals generalizing db with
  | nil =>
    obtain rfl := (Prod.mk.inj hok).2
    exact ⟨rfl, rfl, rfl, fun j t ht => ⟨t, ht, rfl⟩⟩
  | cons p rest ih =>
    obtain ⟨table, l⟩ := p
    obtain ⟨hnot, hnodup⟩ := List.nodup_cons.mp hnodup
    obtain ⟨db₁, he, hok⟩ := Attempt.all_cons_eq_ok.mp hok
    obtain ⟨t, ht⟩ := hin table List.mem_cons_self
    obtain ⟨t₁, rfl, hgain⟩ := applyLocals_ok ht he
    obtain ⟨hdb, heach⟩ := ih hnodup (fun j hj => by
      obtain ⟨u, hu⟩ := hin j (List.mem_cons_of_mem _ hj)
      have hne : j ≠ table := fun heq => hnot (heq ▸ hj)
      exact ⟨u, by rw [Catalog.tables_setTable ht, if_neg hne, hu]⟩) hok
    refine ⟨by rw [hdb], heach.names_eq, heach.size_eq.trans Array.size_setIfInBounds,
      fun j u hu => ?_⟩
    by_cases hj : j = table
    · subst hj
      obtain rfl := Option.some.inj (ht.symm.trans hu)
      obtain ⟨t', ht', hrest⟩ := heach.tables j t₁ (by rw [Catalog.tables_setTable ht, if_pos rfl])
      rw [Table.Gains, LocalTables.get?_eq_none hnot] at hrest
      refine ⟨t', ht', ?_⟩
      rw [Table.Gains, LocalTables.get?_cons, if_pos rfl, show t' = t₁ from hrest]
      exact hgain
    · obtain ⟨t', ht', hrest⟩ := heach.tables j u (by rw [Catalog.tables_setTable ht, if_neg hj, hu])
      refine ⟨t', ht', ?_⟩
      rw [Table.Gains, LocalTables.get?_cons, if_neg hj]
      exact hrest

end Session

end ColumnStore
