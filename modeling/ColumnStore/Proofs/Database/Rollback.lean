/-
# Rolling back

The changes of a transaction are taken back one by one, the newest first.  While that goes on the
database is sound with the transaction as it was when it had made the changes that are left
(`withUndo`); so each change finds what it left behind, and none of them fails (`rollback_ok`).
-/

import ColumnStore.Proofs.Database.Changes

namespace ColumnStore

namespace LocalTables

theorem get?_cons (table : TableId) (rows : LocalRows) (rest : LocalTables) (other : TableId) :
    get? ((table, rows) :: rest) other = if other = table then some rows else get? rest other := by
  rw [get?, List.lookup_cons]
  by_cases h : other = table
  · rw [if_pos h, beq_iff_eq.mpr h]
  · rw [if_neg h, beq_eq_false_iff_ne.mpr h]
    rfl

theorem get?_set (l : LocalTables) (table : TableId) (rows : LocalRows) (other : TableId) :
    (l.set table rows).get? other = if other = table then some rows else l.get? other := by
  induction l with
  | nil => exact get?_cons table rows [] other
  | cons p rest ih =>
    obtain ⟨t, r⟩ := p
    rw [set]
    by_cases ht : t = table
    · subst ht
      rw [if_pos rfl, get?_cons, get?_cons]
      split <;> rfl
    · rw [if_neg ht, get?_cons, get?_cons, ih]
      by_cases h : other = t
      · subst h
        rw [if_pos rfl, if_pos rfl, if_neg ht]
      · rw [if_neg h, if_neg h]

theorem mem_set {l : LocalTables} {table : TableId} {rows : LocalRows} {j : TableId}
    (h : j ∈ (l.set table rows).map (·.1)) : j = table ∨ j ∈ l.map (·.1) := by
  induction l with
  | nil => exact Or.inl (List.mem_singleton.mp h)
  | cons p rest ih =>
    obtain ⟨t, r⟩ := p
    rw [set] at h
    split at h
    · rename_i ht
      subst ht
      exact Or.inr h
    · rcases List.mem_cons.mp h with rfl | h
      · exact Or.inr List.mem_cons_self
      · exact (ih h).imp_right (List.mem_cons_of_mem _)

/-- No table comes twice. -/
theorem nodup_set {l : LocalTables} (h : (l.map (·.1)).Nodup) (table : TableId)
    (rows : LocalRows) : ((l.set table rows).map (·.1)).Nodup := by
  induction l with
  | nil => exact List.nodup_cons.mpr ⟨List.not_mem_nil, List.nodup_nil⟩
  | cons p rest ih =>
    obtain ⟨t, r⟩ := p
    obtain ⟨hnot, hrest⟩ := List.nodup_cons.mp h
    rw [set]
    split
    · rename_i ht
      subst ht
      exact h
    · rename_i ht
      refine List.nodup_cons.mpr ⟨fun hm => ?_, ih hrest⟩
      rcases mem_set hm with rfl | hm
      · exact ht rfl
      · exact hnot hm

end LocalTables

namespace Transaction

/-- A transaction when it had only made some of its changes. -/
def withUndo (x : Transaction) (undo : List UndoRecord) : Transaction := { x with undo }

end Transaction

theorem SameRecords.withUndo (x x' : Transaction) (undo : List UndoRecord) (id : TableId) :
    SameRecords (x.withUndo undo) (x'.withUndo undo) id :=
  ⟨fun _ => Iff.rfl, fun _ _ => rfl⟩

/-- Local rows of a table in place of those that were there. -/
theorem LocalsAgree.set {types? : TableId → Option (List ColumnType)} {locals : LocalTables}
    {undo undo' : List UndoRecord} (h : LocalsAgree types? locals undo) {table : TableId}
    {types : List ColumnType} (ht : types? table = some types) {l : LocalRows}
    (hl : l.Sound types) (hcount : l.count = localCount table undo')
    (hother : ∀ j, j ≠ table → localCount j undo' = localCount j undo) :
    LocalsAgree types? (locals.set table l) undo' := by
  refine ⟨LocalTables.nodup_set h.nodup table l, fun j => ?_⟩
  rw [LocalTables.get?_set]
  by_cases hj : j = table
  · subst hj
    rw [if_pos rfl]
    exact ⟨⟨types, ht, hl⟩, hcount⟩
  · rw [if_neg hj, hother j hj]
    exact h.rows j

theorem LocalsAgree.of_count {types? : TableId → Option (List ColumnType)} {locals : LocalTables}
    {undo undo' : List UndoRecord} (h : LocalsAgree types? locals undo)
    (hc : ∀ j, localCount j undo' = localCount j undo) : LocalsAgree types? locals undo' := by
  refine ⟨h.nodup, fun j => ?_⟩
  rw [hc j]
  exact h.rows j

/-- The local rows of a table that were added by a change. -/
theorem localCount_snoc (table : TableId) (undo : List UndoRecord) (change : UndoRecord) :
    localCount table (undo ++ [change]) = localCount table undo + change.added table := by
  simp [localCount]

namespace Session

/-- What is left after changes were taken back: the transaction has made the changes `undo`, and
nobody else notices. -/
structure Undone (s s' : Session) (undo : List UndoRecord) (others : List Transaction) : Prop where
  transaction_eq : s'.transaction = { s.transaction with locals := s'.transaction.locals }
  sound : s'.database.Sound (s'.transaction.withUndo undo :: others)
  quiet : Database.Quiet s.transaction.id s.database s'.database

theorem Undone.trans {a b c : Session} {undo undo' : List UndoRecord} {others : List Transaction}
    (h : Undone a b undo others) (h' : Undone b c undo' others) : Undone a c undo' others where
  transaction_eq := by
    rw [h'.transaction_eq, h.transaction_eq]
  sound := h'.sound
  quiet := by
    have hid : b.transaction.id = a.transaction.id := by rw [h.transaction_eq]
    exact h.quiet.trans (hid ▸ h'.quiet)

variable {s : Session} {others : List Transaction} {undo : List UndoRecord}

/-- The table that a record is about. -/
theorem table_of_isSome {c : Catalog} {id : TableId} (h : (c.types? id).isSome) :
    ∃ t, c.tables[id]? = some t := by
  unfold Catalog.types? at h
  cases ht : c.tables[id]? with
  | none => rw [ht] at h; cases h
  | some t => exact ⟨t, rfl⟩

/-- **Insertions are taken back:** they are the last local rows. -/
theorem undoInsert_ok {table : TableId} {start n : Nat}
    (h : s.database.Sound (s.transaction.withUndo (undo ++ [.insert table start n]) :: others)) :
    ∃ s', s.undoInsert table start n = (.ok (), s') ∧ Undone s s' undo others := by
  have hrec := h.recorded _ List.mem_cons_self
  obtain ⟨hundo, ⟨-, hstart, hn⟩⟩ := hrec.undoable.init
  have hlocals : LocalsAt _ _ (s.transaction.locals.get? table) := hrec.locals.rows table
  have hcount := localCount_snoc table undo (.insert table start n)
  rw [UndoRecord.added, if_pos rfl] at hcount
  simp only [undoInsert, locals?]
  cases hl : s.transaction.locals.get? table with
  | none =>
    rw [hl] at hlocals
    have : localCount table (undo ++ [.insert table start n]) = 0 := hlocals
    omega
  | some l =>
    rw [hl] at hlocals
    obtain ⟨⟨types, ht, hsound⟩, hc⟩ := hlocals
    have hc : l.count = localCount table undo + n := hc.trans hcount
    obtain ⟨hsound', hcount'⟩ := LocalRows.truncate_ok hsound (n := start) (by omega)
    refine ⟨_, if_pos (by omega), rfl, ?_, h.quiet_refl _⟩
    have hsame : ∀ j, SameRecords (s.transaction.withUndo (undo ++ [.insert table start n]))
        ((s.setLocal table (l.truncate start)).transaction.withUndo undo) j := fun j =>
      ⟨fun r => by simp [Transaction.deletedRows, Transaction.withUndo, UndoRecord.deletedRows],
        fun i r => by simp [Transaction.images, Transaction.withUndo, UndoRecord.imagePairs]⟩
    refine h.replace rfl rfl ⟨hundo, ?_, fun j => ?_⟩ hsame
    · refine hrec.locals.set ht hsound' (hcount'.trans hstart) fun j hj => ?_
      change localCount j undo = localCount j (undo ++ [.insert table start n])
      rw [localCount_snoc, UndoRecord.added, if_neg (Ne.symm hj), Nat.add_zero]
    · have := hrec.nodup j
      simpa [Transaction.deletedRows, Transaction.withUndo, UndoRecord.deletedRows] using this

theorem undelete_fold {types : List ColumnType} {l : LocalRows} (h : l.Sound types)
    (rows : List Nat) :
    (rows.foldl (fun l row => l.undelete (row - firstLocalRow)) l).Sound types ∧
      (rows.foldl (fun l row => l.undelete (row - firstLocalRow)) l).count = l.count := by
  induction rows generalizing l with
  | nil => exact ⟨h, rfl⟩
  | cons row rest ih => exact ih (LocalRows.sound_withDeleted h _)

/-- The local rows of a table with deletions taken back, if there are any. -/
def undeleted (s : Session) (table : TableId) (rows : List Nat) : Session :=
  match s.locals? table with
  | none => s
  | some l =>
    s.setLocal table ((rows.reverse.filter isLocalRow).foldl
      (fun l row => l.undelete (row - firstLocalRow)) l)

/-- Other local rows do not matter to the tables. -/
theorem undeleted_ok {undo' : List UndoRecord} (table : TableId) (rows : List Nat)
    (h : s.database.Sound (s.transaction.withUndo undo' :: others)) :
    (s.undeleted table rows).database = s.database ∧
      (s.undeleted table rows).transaction =
        { s.transaction with locals := (s.undeleted table rows).transaction.locals } ∧
      (s.undeleted table rows).database.Sound
        ((s.undeleted table rows).transaction.withUndo undo' :: others) := by
  have hrec := h.recorded _ List.mem_cons_self
  have hlocals : LocalsAt _ _ (s.transaction.locals.get? table) := hrec.locals.rows table
  unfold undeleted locals?
  cases hl : s.transaction.locals.get? table with
  | none => exact ⟨rfl, rfl, h⟩
  | some l =>
    rw [hl] at hlocals
    obtain ⟨⟨types, ht, hsound⟩, hc⟩ := hlocals
    obtain ⟨hsound', hcount'⟩ := undelete_fold hsound (rows.reverse.filter isLocalRow)
    refine ⟨rfl, rfl, h.replace rfl rfl ⟨hrec.undoable, ?_, hrec.nodup⟩ fun j =>
      SameRecords.withUndo _ _ undo' j⟩
    exact hrec.locals.set ht hsound' (hcount'.trans hc) fun _ _ => rfl

/-- **Deletions are taken back:** the rows carry the number of the transaction. -/
theorem undoDelete_ok {table : TableId} {rows : List Nat}
    (h : s.database.Sound (s.transaction.withUndo (undo ++ [.delete table rows]) :: others)) :
    ∃ s', s.undoDelete table rows = (.ok (), s') ∧ Undone s s' undo others := by
  obtain ⟨hdb, hx, h₁⟩ := undeleted_ok table rows h
  have hundo_eq : s.undoDelete table rows =
      (s.undeleted table rows).onDatabase fun db => db.change table fun t =>
        t.revertDelete (s.undeleted table rows).transaction.id (committedRows rows).reverse := rfl
  rw [hundo_eq]
  generalize s.undeleted table rows = s₁ at hdb hx h₁ ⊢
  have hid : s₁.transaction.id = s.transaction.id := by rw [hx]
  have hrec := h₁.recorded _ List.mem_cons_self
  obtain ⟨hundo, hsome⟩ := hrec.undoable.init
  obtain ⟨t, ht⟩ := table_of_isSome hsome
  obtain ⟨hts, -⟩ := h₁.catalog.tables table t ht
  have hown := h₁.owned table t ht
  have hdel : ∀ j r, r ∈ (s₁.transaction.withUndo (undo ++ [.delete table rows])).deletedRows j ↔
      r ∈ (s₁.transaction.withUndo undo).deletedRows j ∨ j = table ∧ r ∈ committedRows rows := by
    intro j r
    by_cases hj : table = j
    · simp [Transaction.deletedRows, Transaction.withUndo, UndoRecord.deletedRows, hj]
    · simp [Transaction.deletedRows, Transaction.withUndo, UndoRecord.deletedRows, hj, Ne.symm hj]
  have hnodup := hrec.nodup table
  simp only [Transaction.deletedRows, Transaction.withUndo, List.flatMap_append,
    List.flatMap_singleton, UndoRecord.deletedRows, if_true] at hnodup
  obtain ⟨-, hnodup', hdisjoint⟩ := List.nodup_append.mp hnodup
  -- Every row that the change deleted carries the number of the transaction.
  have hheld : ∀ r ∈ (committedRows rows).reverse, ∃ st, t.stamps? r = some st ∧
      st.deleted = s₁.transaction.id := by
    intro r hr
    have hmem := (hdel table r).mpr (Or.inr ⟨rfl, List.mem_reverse.mp hr⟩)
    have hrow := hown.rows r
    cases hst : t.stamps? r with
    | none =>
      rw [hst] at hrow
      exact absurd hmem (hrow _ List.mem_cons_self)
    | some st =>
      rw [hst] at hrow
      exact ⟨st, rfl, (hrow.held h₁.others_ne hmem).1⟩
  obtain ⟨t', he, hr⟩ := Table.revertDelete_ok hts (List.pairwise_reverse.mpr (hnodup'.imp Ne.symm)) hheld
  refine ⟨⟨{ s₁.database with catalog := s₁.database.catalog.setTable table t' }, s₁.transaction⟩,
    ?_, hx, ?_, ?_⟩
  · rw [onDatabase, Database.change_eq ht, he]
  · refine h₁.change (s₁.transaction.withUndo undo) ht hr.keeps rfl rfl ⟨hundo, ?_, fun j => ?_⟩ (hown.unmark h₁.others_ne hr
      rfl rfl (fun r hr => (hdel table r).mpr (Or.inr ⟨rfl, List.mem_reverse.mp hr⟩))
      (fun r => ?_) fun i r => ?_) fun j hj => ⟨fun r => ?_, fun i r => ?_⟩
    · refine hrec.locals.of_count fun j => ?_
      simp only [Transaction.withUndo, localCount_snoc, UndoRecord.added, Nat.add_zero]
    · have := hrec.nodup j
      simp only [Transaction.deletedRows, Transaction.withUndo, List.flatMap_append] at this
      exact (List.nodup_append.mp this).1
    · rw [hdel table r, List.mem_reverse]
      constructor
      · exact fun hr => ⟨Or.inl hr, fun hm => hdisjoint r hr r hm rfl⟩
      · rintro ⟨hr | ⟨-, hm⟩, hn⟩
        · exact hr
        · exact absurd hm hn
    · simp [Transaction.images, Transaction.withUndo, UndoRecord.imagePairs]
    · rw [hdel j r]
      simp [hj]
    · simp [Transaction.images, Transaction.withUndo, UndoRecord.imagePairs]
  · rw [← hdb, ← hid]
    refine h₁.quiet_setTable ht hr.keeps fun snap hs hn => hr.looks fun r hm st hst => ?_
    obtain ⟨st', hst', hd⟩ := hheld r hm
    obtain rfl := Option.some.inj (hst.symm.trans hst')
    exact Snapshot.stamps?_withDeleted hn (hd ▸ hs)

theorem zip_fst_snd (pairs : List (Nat × Scalar)) :
    (pairs.map (·.1)).zip (pairs.map (·.2)) = pairs := by
  rw [List.zip_map']
  exact List.map_id pairs

/-- The update of some rows, with the values before. -/
def updateOf (table : TableId) (column : Nat) (pairs : List (Nat × Scalar)) : UndoRecord :=
  .update table column (pairs.map (·.1)) (pairs.map (·.2))

theorem images_updateOf (x : Transaction) (undo : List UndoRecord) (table : TableId) (column : Nat)
    (pairs : List (Nat × Scalar)) (j : TableId) (i r : Nat) :
    (x.withUndo (undo ++ [updateOf table column pairs])).images j i r =
      (x.withUndo undo).images j i r ++
        if table = j ∧ column = i then valuesFor r (pairs.filter (!isLocalRow ·.1)) else [] := by
  simp only [Transaction.images, Transaction.withUndo, List.flatMap_append, valuesFor_append,
    List.flatMap_singleton, updateOf, UndoRecord.imagePairs, zip_fst_snd]
  split <;> rfl

theorem deletedRows_updateOf (x : Transaction) (undo : List UndoRecord) (table : TableId)
    (column : Nat) (pairs : List (Nat × Scalar)) (j : TableId) :
    (x.withUndo (undo ++ [updateOf table column pairs])).deletedRows j =
      (x.withUndo undo).deletedRows j := by
  simp [Transaction.deletedRows, Transaction.withUndo, updateOf, UndoRecord.deletedRows]

/-- The records of a transaction that has taken back the last row of an update. -/
theorem recorded_init {x : Transaction} {types? : TableId → Option (List ColumnType)}
    {table : TableId} {column : Nat} {pairs : List (Nat × Scalar)} {p : Nat × Scalar}
    (h : (x.withUndo (undo ++ [updateOf table column (pairs ++ [p])])).Recorded types?)
    {locals : LocalTables}
    (hl : LocalsAgree types? locals (undo ++ [updateOf table column (pairs ++ [p])])) :
    ({ x with locals }.withUndo (undo ++ [updateOf table column pairs])).Recorded types? := by
  obtain ⟨hundo, hlen, types, type, ht, hc, hlocal⟩ := h.undoable.init
  refine ⟨.snoc hundo ⟨by simp, types, type, ht, hc, fun q hq => hlocal q ?_⟩, ?_, fun j => ?_⟩
  · rw [zip_fst_snd] at hq ⊢
    exact List.mem_append_left _ hq
  · refine hl.of_count fun j => ?_
    simp only [Transaction.withUndo, localCount_snoc, updateOf, UndoRecord.added]
  · have := h.nodup j
    rw [deletedRows_updateOf] at this ⊢
    exact this

/-- **The update of a local row is taken back.** -/
theorem undoLocalUpdate_ok {table : TableId} {column : Nat} {pairs : List (Nat × Scalar)}
    {row : Nat} {before : Scalar} (hrow : isLocalRow row = true)
    (h : s.database.Sound
      (s.transaction.withUndo (undo ++ [updateOf table column (pairs ++ [(row, before)])]) ::
        others)) :
    ∃ s', s.undoLocalUpdate table column (row - firstLocalRow) before = (.ok (), s') ∧
      Undone s s' (undo ++ [updateOf table column pairs]) others := by
  have hrec := h.recorded _ List.mem_cons_self
  obtain ⟨hundo, hlen, types, type, ht, hc, hlocal⟩ := hrec.undoable.init
  rw [zip_fst_snd] at hlocal
  obtain ⟨hoffset, hfit⟩ := hlocal _ (List.mem_append_right _ (List.mem_singleton_self _)) hrow
  have hlocals : LocalsAt _ _ (s.transaction.locals.get? table) := hrec.locals.rows table
  have hcount := localCount_snoc table undo (updateOf table column (pairs ++ [(row, before)]))
  rw [show (updateOf table column (pairs ++ [(row, before)])).added table = 0 from rfl,
    Nat.add_zero] at hcount
  simp only [undoLocalUpdate, locals?]
  cases hl : s.transaction.locals.get? table with
  | none =>
    rw [hl] at hlocals
    have : localCount table (undo ++ [updateOf table column (pairs ++ [(row, before)])]) = 0 :=
      hlocals
    omega
  | some l =>
    rw [hl] at hlocals
    obtain ⟨⟨types', ht', hsound⟩, hcl⟩ := hlocals
    obtain rfl := Option.some.inj (ht.symm.trans ht')
    have hcl : l.count = localCount table undo := hcl.trans hcount
    obtain ⟨l', hset, hsound', hcount', -, -⟩ :=
      LocalRows.set_ok hsound hc (i := row - firstLocalRow) (by omega) hfit
    have hcontains : l.contains (row - firstLocalRow) = true := decide_eq_true (by omega)
    refine ⟨s.setLocal table l', by simp only [hcontains, if_true, hset, mapError_ok], rfl, ?_,
      h.quiet_refl _⟩
    refine h.replace rfl rfl (recorded_init (x := s.transaction) hrec ?_) fun j =>
      ⟨fun r => ?_, fun i r => ?_⟩
    · exact hrec.locals.set ht hsound' (hcount'.trans (hcl.trans hcount.symm)) fun _ _ => rfl
    · rw [deletedRows_updateOf, deletedRows_updateOf]
      rfl
    · rw [images_updateOf, images_updateOf, List.filter_append]
      have : [(row, before)].filter (!isLocalRow ·.1) = [] := by simp [hrow]
      rw [this, List.append_nil]
      rfl

/-- **The update of a row of the table is taken back:** the newest version is that of the
transaction, which sees the value before again without it. -/
theorem undoTableUpdate_ok {table : TableId} {column : Nat} {pairs : List (Nat × Scalar)}
    {row : Nat} {before : Scalar} (hrow : isLocalRow row = false)
    (h : s.database.Sound
      (s.transaction.withUndo (undo ++ [updateOf table column (pairs ++ [(row, before)])]) ::
        others)) :
    ∃ s', (s.onDatabase fun db => db.changeReading table fun source t =>
        t.revertUpdate source column row s.transaction.snapshot before) = (.ok (), s') ∧
      Undone s s' (undo ++ [updateOf table column pairs]) others := by
  have hrec := h.recorded _ List.mem_cons_self
  obtain ⟨hundo, hlen, types, type, htypes, hc, hlocal⟩ := hrec.undoable.init
  obtain ⟨t, ht⟩ := table_of_isSome (by rw [htypes]; rfl)
  obtain ⟨hts, -⟩ := h.catalog.tables table t ht
  have hown := h.owned table t ht
  have himages : ∀ j i r,
      (s.transaction.withUndo (undo ++ [updateOf table column (pairs ++ [(row, before)])])).images
        j i r =
      (s.transaction.withUndo (undo ++ [updateOf table column pairs])).images j i r ++
        if table = j ∧ column = i ∧ row = r then [before] else [] := by
    intro j i r
    have hlast : valuesFor r ([(row, before)].filter (!isLocalRow ·.1)) =
        if row = r then [before] else [] := by
      simp only [List.filter_singleton, hrow, Bool.not_false]
      exact valuesFor_cons r (row, before) []
    rw [images_updateOf, images_updateOf, List.filter_append, valuesFor_append, hlast,
      List.append_assoc]
    by_cases hj : table = j ∧ column = i
    · simp [hj.1, hj.2]
    · have : ¬(table = j ∧ column = i ∧ row = r) := fun hh => hj ⟨hh.1, hh.2.1⟩
      simp [hj, this]
  obtain ⟨front, y, hchain, hread, howned⟩ := hown.unwrite
    (s.transaction.withUndo (undo ++ [updateOf table column pairs])) column row before h.others_ne
    rfl rfl
    (fun r => by rw [deletedRows_updateOf, deletedRows_updateOf]) fun i r => by
      rw [himages table i r]
      simp only [true_and, eq_comm]
  have hi : column < t.columns.length := by
    have := (List.getElem?_eq_some_iff.mp hc).1
    have hdefs : types = t.types := by
      rw [Catalog.types?, ht] at htypes
      exact (Option.some.inj htypes).symm
    rw [Table.length_columns hts]
    rw [hdefs, Table.types, List.length_map] at this
    exact this
  have hlt : row < t.rows := by
    refine Nat.lt_of_not_le fun hle => ?_
    obtain ⟨d, -, -, hd⟩ := Table.holds_of_some hts (List.getElem?_eq_getElem hi)
    have hnil := Column.chain_of_le (hd.rows_eq.symm ▸ hle)
    rw [Table.chain_of_some (List.getElem?_eq_getElem hi), hnil] at hchain
    cases front <;> cases hchain
  rw [← h.under_eq ht] at hread
  obtain ⟨t', he, hr⟩ := Table.revertUpdate_ok hts hi hlt (s := s.transaction.snapshot) hchain hread
  have hk : (s.database.remember (t.revertUpdate s.database.source column row
      s.transaction.snapshot before).decoded).Sound _ :=
    h.remember (Table.honest_revertUpdate hown.safe column row s.transaction.snapshot before)
  refine ⟨⟨_, s.transaction⟩, by rw [onDatabase, Database.changeReading_eq ht he], rfl, ?_, ?_⟩
  · refine hk.change (s.transaction.withUndo (undo ++ [updateOf table column pairs])) ht
      hr.keeps rfl rfl (recorded_init (x := s.transaction) hrec hrec.locals)
      (howned t' hr) fun j hj => ⟨fun r => ?_, fun i r => ?_⟩
    · rw [deletedRows_updateOf, deletedRows_updateOf]
    · rw [himages j i r, if_neg fun hh => hj hh.1.symm, List.append_nil]
  · refine (h.quiet_remember _ _).trans (hk.quiet_setTable ht hr.keeps fun snap hs hn =>
      hr.looks fun r hm => ?_)
    obtain rfl := List.mem_singleton.mp hm
    rw [hchain, Snapshot.versions_append, eq_comm]
    exact (congrArg _ (Snapshot.versions_versionsOf_of_unseen hs [y])).trans (List.append_nil _)

/-- **Updates are taken back,** the last first. -/
theorem undoUpdates_ok {table : TableId} {column : Nat} {pairs : List (Nat × Scalar)}
    (h : s.database.Sound (s.transaction.withUndo (undo ++ [updateOf table column pairs]) ::
      others)) :
    ∃ s', undoUpdates table column s pairs.reverse = (.ok (), s') ∧ Undone s s' undo others := by
  induction pairs using List.reverseRecOn generalizing s with
  | nil =>
    have hrec := h.recorded _ List.mem_cons_self
    refine ⟨s, rfl, rfl, h.replace rfl rfl ⟨hrec.undoable.init.1, hrec.locals.of_count fun j => ?_,
      fun j => ?_⟩ fun j => ⟨fun r => ?_, fun i r => ?_⟩, h.quiet_refl _⟩
    · exact (localCount_snoc j undo (updateOf table column [])).symm
    · have := hrec.nodup j
      rwa [deletedRows_updateOf] at this
    · rw [deletedRows_updateOf]
    · rw [images_updateOf]
      simp
  | append_singleton pairs p ih =>
    obtain ⟨row, before⟩ := p
    obtain ⟨s₁, he, hu⟩ : ∃ s₁, (if isLocalRow row then
          s.undoLocalUpdate table column (row - firstLocalRow) before
        else
          s.onDatabase fun db => db.changeReading table fun source t =>
            t.revertUpdate source column row s.transaction.snapshot before) = (.ok (), s₁) ∧
        Undone s s₁ (undo ++ [updateOf table column pairs]) others := by
      cases hrow : isLocalRow row with
      | true => exact undoLocalUpdate_ok hrow h
      | false => exact undoTableUpdate_ok hrow h
    obtain ⟨s', he', hu'⟩ := ih hu.sound
    refine ⟨s', ?_, hu.trans hu'⟩
    rw [List.reverse_append, List.reverse_singleton, List.singleton_append, undoUpdates, he]
    exact he'

/-- **The newest change can be taken back.** -/
theorem undo_ok {change : UndoRecord}
    (h : s.database.Sound (s.transaction.withUndo (undo ++ [change]) :: others)) :
    ∃ s', s.undo change = (.ok (), s') ∧ Undone s s' undo others := by
  cases change with
  | insert table start n => exact undoInsert_ok h
  | delete table rows => exact undoDelete_ok h
  | update table column rows before =>
    obtain ⟨-, hlen, -⟩ := (h.recorded _ List.mem_cons_self).undoable.init
    have hpairs : UndoRecord.update table column rows before =
        updateOf table column (rows.zip before) := by
      rw [updateOf, List.map_fst_zip (by omega), List.map_snd_zip (by omega)]
    rw [hpairs] at h
    obtain ⟨s', he, hu⟩ := undoUpdates_ok h
    exact ⟨s', by rw [Session.undo, if_neg (not_not.mpr hlen), he], hu⟩

/-- **All changes can be taken back.** -/
theorem undoAll_ok (h : s.database.Sound (s.transaction.withUndo undo :: others)) :
    ∃ s', Attempt.all Session.undo s undo.reverse = (.ok (), s') ∧ Undone s s' [] others := by
  induction undo using List.reverseRecOn generalizing s with
  | nil => exact ⟨s, rfl, rfl, h, h.quiet_refl _⟩
  | append_singleton front change ih =>
    obtain ⟨s₁, he, hu⟩ := undo_ok h
    obtain ⟨s', he', hu'⟩ := ih hu.sound
    refine ⟨s', ?_, hu.trans hu'⟩
    rw [List.reverse_append, List.reverse_singleton, List.singleton_append, Attempt.all, he]
    dsimp only
    rw [he']
    rfl

/-! ## The end of a transaction -/

end Session

namespace Database

/-- The list of active transactions without the first one. -/
theorem Sound.listed_others {db : Database} {x : Transaction} {others : List Transaction}
    (h : db.Sound (x :: others)) (id : Stamp) :
    id ∈ (db.unregister x.id).active ↔ id ∈ others.map (·.id) := by
  have hnot := (List.nodup_cons.mp h.distinct).1
  rw [Database.unregister, List.mem_filter, h.listed id, List.map_cons, List.mem_cons,
    decide_eq_true_iff]
  constructor
  · rintro ⟨rfl | hi, hne⟩
    · exact absurd rfl hne
    · exact hi
  · refine fun hi => ⟨Or.inr hi, fun he => hnot ?_⟩
    rw [he] at hi
    exact hi

/-- A transaction without changes can be taken off the list. -/
theorem Sound.unregister {db : Database} {x : Transaction} {others : List Transaction}
    (h : db.Sound (x :: others)) (hx : x.undo = []) : (db.unregister x.id).Sound others where
  catalog := h.catalog
  last_lt := h.last_lt
  next_ge := h.next_ge
  next_le := h.next_le
  distinct := (List.nodup_cons.mp h.distinct).2
  ids y hy := h.ids y (List.mem_cons_of_mem _ hy)
  listed i := h.listed_others i
  recorded y hy := h.recorded y (List.mem_cons_of_mem _ hy)
  owned j u hu := (h.owned j u hu).release hx
  kept := h.kept

end Database

namespace Session

/-- **A transaction that is active can be rolled back,** and nobody else notices. -/
theorem rollback_ok {s : Session} {others : List Transaction}
    (h : s.database.Sound (s.transaction :: others)) (hactive : s.transaction.state = .active) :
    ∃ db, s.rollback = (.ok (), ⟨db.unregister s.transaction.id,
        { s.transaction.forget with state := .aborted }⟩) ∧
      (db.unregister s.transaction.id).Sound others ∧
      Database.Quiet s.transaction.id s.database db := by
  have hall : s.database.Sound (s.transaction.withUndo s.transaction.undo :: others) := h
  obtain ⟨s', he, hu⟩ := undoAll_ok hall
  have hid : s'.transaction.id = s.transaction.id := by rw [hu.transaction_eq]
  refine ⟨s'.database, ?_, ?_, hu.quiet⟩
  · rw [rollback, if_neg (by rw [hactive]; decide), Transaction.checkActive, if_pos hactive]
    simp only [he, hid]
    rw [hu.transaction_eq]
    rfl
  · have := hu.sound.unregister rfl
    rwa [show (s'.transaction.withUndo []).id = s.transaction.id from hid] at this

end Session
end ColumnStore
