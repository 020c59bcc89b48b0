/-
# Writing

An insertion, a deletion or an update by an active transaction does what it says, records it, and
leaves the database sound; one that is refused leaves everything as it was.  Nobody else notices
either.
-/

import ColumnStore.Proofs.Database.Rollback

namespace ColumnStore

/-- A transaction that may write: it is active and not cancelled. -/
structure Transaction.Writing (x : Transaction) : Prop where
  active : x.state = .active
  raised : x.cancel.raised = false

namespace Session

variable {s : Session} {others : List Transaction} {table : TableId} {t : Table}

theorem whileActive_writing {α : Type} (h : s.transaction.Writing)
    (write : Session → Attempt TransactionError Session α) : s.whileActive write = write s := by
  rw [whileActive, Transaction.checkActive, if_pos h.active]
  simp only [h.raised, Bool.false_eq_true, if_false]

theorem whileActive_ended {α : Type} (h : s.transaction.state ≠ .active)
    (write : Session → Attempt TransactionError Session α) :
    ∃ e, s.whileActive write = (.error e, s) := by
  rw [whileActive, Transaction.checkActive, if_neg h]
  exact ⟨_, rfl⟩

/-- **The first write after a cancellation rolls the transaction back.** -/
theorem whileActive_cancelled {α : Type} (h : s.database.Sound (s.transaction :: others))
    (hactive : s.transaction.state = .active) (hc : s.transaction.cancel.raised = true)
    (write : Session → Attempt TransactionError Session α) :
    s.whileActive write = (.error .cancelled, s.rollback.2) := by
  obtain ⟨db, he, -⟩ := rollback_ok h hactive
  rw [whileActive, Transaction.checkActive, if_pos hactive]
  simp only [hc, if_true, stop, he, Attempt.andThen_ok]

/-- The local rows of a sound session. -/
theorem locals_ok (h : s.database.Sound (s.transaction :: others))
    (ht : s.database.catalog.tables[table]? = some t) :
    match s.locals? table with
    | some l => l.Sound t.types ∧ l.count = localCount table s.transaction.undo
    | none => localCount table s.transaction.undo = 0 := by
  have hl := (h.recorded _ List.mem_cons_self).locals.rows table
  unfold locals?
  cases hg : s.transaction.locals.get? table with
  | none =>
    rw [hg] at hl
    exact hl
  | some l =>
    rw [hg] at hl
    obtain ⟨⟨types, htypes, hs⟩, hc⟩ := hl
    rw [Catalog.types?, ht] at htypes
    obtain rfl := Option.some.inj htypes
    exact ⟨hs, hc⟩

theorem types_ok (ht : s.database.catalog.tables[table]? = some t) :
    s.database.catalog.types? table = some t.types := by
  rw [Catalog.types?, ht]
  rfl

theorem locals?_setLocal (s : Session) (table : TableId) (l : LocalRows) (j : TableId) :
    (s.setLocal table l).locals? j = if j = table then some l else s.locals? j :=
  LocalTables.get?_set s.transaction.locals table l j

/-- Other local rows do not matter to the tables. -/
theorem sound_setLocal (h : s.database.Sound (s.transaction :: others))
    (ht : s.database.catalog.tables[table]? = some t) {l : LocalRows} (hl : l.Sound t.types)
    (hc : l.count = localCount table s.transaction.undo) :
    s.database.Sound ((s.setLocal table l).transaction :: others) := by
  have hrec := h.recorded _ List.mem_cons_self
  exact h.replace rfl rfl ⟨hrec.undoable, hrec.locals.set (types_ok ht) hl hc fun _ _ => rfl,
    hrec.nodup⟩ fun j => SameRecords.of_undo s.transaction (s.setLocal table l).transaction rfl j

/-! ## Inserting -/

/-- What an insertion did that was not refused: the rows of the chunk are behind the local rows. -/
structure Inserts (s s' : Session) (table : TableId) (t : Table) (c : Chunk) : Prop where
  database_eq : s'.database = s.database
  transaction_eq : s'.transaction =
    { s.transaction with locals := s'.transaction.locals, undo := s'.transaction.undo }
  others_eq : ∀ j, j ≠ table → s'.locals? j = s.locals? j
  added : ∃ l', s'.locals? table = some l' ∧
    LocalRows.Keeps ((s.locals? table).getD (.new t.types)) l' t.types ∧
    l'.count = ((s.locals? table).getD (.new t.types)).count + c.cardinality ∧
    c.columns.length = t.types.length ∧
    ∀ (j : Nat) (source : ValueVector), c.columns[j]? = some source →
      ∃ values, source.Lists c.slots values ∧ ∀ k x, values[k]? = some x →
        l'.get? j (((s.locals? table).getD (.new t.types)).count + k) = some x

/-- What a refused write may have done: the local rows of a table lie elsewhere. -/
structure Refused (s s' : Session) (table : TableId) (t : Table) : Prop where
  database_eq : s'.database = s.database
  transaction_eq : s'.transaction = { s.transaction with locals := s'.transaction.locals }
  others_eq : ∀ j, j ≠ table → s'.locals? j = s.locals? j
  kept : ∃ l', s'.locals? table = some l' ∧
    LocalRows.Keeps ((s.locals? table).getD (.new t.types)) l' t.types ∧
    l'.count = ((s.locals? table).getD (.new t.types)).count

/-- **An insertion** puts the rows of a chunk behind the local rows of the table, or is refused. -/
theorem insert_cases (h : s.database.Sound (s.transaction :: others))
    (hw : s.transaction.Writing) (ht : s.database.catalog.tables[table]? = some t) (c : Chunk) :
    (s.insert table c = (.ok 0, s) ∧ c.cardinality = 0) ∨
      (∃ e s', s.insert table c = (.error e, s') ∧ Refused s s' table t ∧
        s'.database.Sound (s'.transaction :: others)) ∨
      ∃ s', s.insert table c = (.ok c.cardinality, s') ∧ Inserts s s' table t c ∧
        s'.database.Sound (s'.transaction :: others) := by
  have hts := (h.catalog.tables table t ht).1
  have htable : s.table table = t := Catalog.table_of_some ht
  unfold insert
  rw [whileActive_writing hw, htable]
  by_cases hempty : c.isEmpty = true
  · exact Or.inl ⟨if_pos hempty, by simpa [Chunk.isEmpty] using hempty⟩
  refine Or.inr ?_
  rw [if_neg hempty]
  have hpos : 0 < c.cardinality := Nat.pos_of_ne_zero (by simpa [Chunk.isEmpty] using hempty)
  -- The local rows before the insertion, none when this is the first.
  have hold : ((s.locals? table).getD (.new t.types)).Sound t.types ∧
      ((s.locals? table).getD (.new t.types)).count = localCount table s.transaction.undo := by
    have hl := locals_ok h ht
    cases hg : s.locals? table with
    | none =>
      rw [hg] at hl
      exact ⟨LocalRows.sound_new fun type hm => Table.plain_of_sound hts hm, hl.symm⟩
    | some l =>
      rw [hg] at hl
      exact hl
  dsimp only
  rcases LocalRows.append_cases hold.1 c with ⟨e, l', he, hk, hc⟩ | ⟨l', he, hk, hc, hlen, hall⟩
  · refine Or.inl ⟨_, s.setLocal table l', by rw [he], ⟨rfl, rfl, fun j hj => ?_, l', ?_, hk, hc⟩,
      sound_setLocal h ht hk.sound (hc.trans hold.2)⟩
    · rw [locals?_setLocal, if_neg hj]
    · rw [locals?_setLocal, if_pos rfl]
  · have hstart : ((s.locals? table).getD (.new t.types)).count + c.cardinality -
        ((s.locals? table).getD (.new t.types)).count = c.cardinality := Nat.add_sub_cancel_left ..
    have hundo : ((s.setLocal table l').record (.insert table
        ((s.locals? table).getD (.new t.types)).count c.cardinality)).transaction.undo =
      s.transaction.undo ++ [.insert table ((s.locals? table).getD (.new t.types)).count
        c.cardinality] := rfl
    refine Or.inr ⟨(s.setLocal table l').record (.insert table
      ((s.locals? table).getD (.new t.types)).count c.cardinality), by simp only [he, hstart], ⟨rfl, rfl, fun j hj => ?_, l', ?_, hk, hc, ?_, hall⟩, ?_⟩
    · exact (locals?_setLocal s table l' j).trans (if_neg hj)
    · exact (locals?_setLocal s table l' table).trans (if_pos rfl)
    · exact hlen.trans hold.1.columns.length_eq
    · have hrec := h.recorded _ List.mem_cons_self
      refine h.replace rfl rfl ⟨.snoc hrec.undoable ⟨by rw [types_ok ht]; rfl, hold.2, hpos⟩,
        hrec.locals.set (types_ok ht) hk.sound ?_ fun j hj => ?_, fun j => ?_⟩ fun j =>
          ⟨fun r => ?_, fun i r => ?_⟩
      · change _ = localCount table (s.transaction.undo ++ _)
        rw [localCount_snoc, UndoRecord.added, if_pos rfl, hc, hold.2]
      · change localCount j (s.transaction.undo ++ _) = _
        rw [localCount_snoc, UndoRecord.added, if_neg (Ne.symm hj), Nat.add_zero]
      · have hdel := Transaction.deletedRows_snoc (x := s.transaction) hundo j
        rw [hdel, UndoRecord.deletedRows_insert, List.append_nil]
        exact hrec.nodup j
      · have hdel := Transaction.deletedRows_snoc (x := s.transaction) hundo j
        rw [hdel, UndoRecord.deletedRows_insert, List.append_nil]
      · have himg := Transaction.images_snoc (x := s.transaction) hundo j i r
        rw [himg, UndoRecord.imagePairs_insert, valuesFor_nil, List.append_nil]

/-! ## Deleting -/

theorem isDeleted_delete (l : LocalRows) (i j : Nat) :
    (l.delete i).2.isDeleted j = (l.isDeleted j || i == j) := by
  unfold LocalRows.delete
  by_cases hi : l.isDeleted i = true
  · rw [if_pos hi]
    by_cases hj : i = j
    · simp [← hj, hi]
    · simp [hj]
  · rw [if_neg hi]
    rw [LocalRows.isDeleted, LocalRows.isDeleted, List.contains_cons, Bool.or_comm,
      Bool.beq_comm]

theorem shape_delete (l : LocalRows) (i : Nat) :
    (l.delete i).2.columns = l.columns ∧ (l.delete i).2.count = l.count := by
  unfold LocalRows.delete
  split <;> exact ⟨rfl, rfl⟩

/-- **Local rows are marked deleted.** -/
theorem deleteLocals_ok (l : LocalRows) (rows : List Nat) :
    (deleteLocals l rows).2.columns = l.columns ∧ (deleteLocals l rows).2.count = l.count ∧
      (∀ i, (deleteLocals l rows).2.isDeleted i =
        (l.isDeleted i || rows.any (· - firstLocalRow == i))) ∧
      ∀ r ∈ (deleteLocals l rows).1, r ∈ rows := by
  induction rows generalizing l with
  | nil => exact ⟨rfl, rfl, by simp [deleteLocals], by simp [deleteLocals]⟩
  | cons row rest ih =>
    obtain ⟨hcols, hcount, hdel, hsub⟩ := ih (l.delete (row - firstLocalRow)).2
    obtain ⟨hcols', hcount'⟩ := shape_delete l (row - firstLocalRow)
    refine ⟨hcols.trans hcols', hcount.trans hcount', fun i => ?_, fun r hr => ?_⟩
    · rw [List.any_cons, ← Bool.or_assoc, ← isDeleted_delete]
      exact hdel i
    · simp only [deleteLocals] at hr
      split at hr
      · rcases List.mem_cons.mp hr with rfl | hr
        · exact List.mem_cons_self
        · exact List.mem_cons_of_mem _ (hsub r hr)
      · exact List.mem_cons_of_mem _ (hsub r hr)

/-- What a deletion did that was not refused: it has marked the rows of the table that the writer
did not see as deleted, and its local rows. -/
structure Deletes (s s' : Session) (table : TableId) (t t' : Table) (rows marked : List Nat) :
    Prop where
  database_eq :
    s'.database = { s.database with catalog := s.database.catalog.setTable table t' }
  transaction_eq : s'.transaction =
    { s.transaction with locals := s'.transaction.locals, undo := s'.transaction.undo }
  writable : ∀ r ∈ marked, r ∈ committedRows rows ∧ t.Writable t.columns r s.transaction.snapshot
  skipped : ∀ r ∈ committedRows rows, r ∉ marked → t.SeenDeleted r s.transaction.snapshot
  restamps : Table.Restamps t t' marked (RowStamps.withDeleted s.transaction.id)
  others_eq : ∀ j, j ≠ table → s'.locals? j = s.locals? j
  none_eq : s.locals? table = none →
    s'.locals? table = none ∧ ∀ row ∈ rows, isLocalRow row = false
  some_eq : ∀ l, s.locals? table = some l → (∀ row ∈ rows, isLocalRow row = true →
      row - firstLocalRow < l.count) ∧ ∃ l', s'.locals? table = some l' ∧
    l'.columns = l.columns ∧ l'.count = l.count ∧ ∀ i, l'.isDeleted i =
      (l.isDeleted i || (rows.filter isLocalRow).any (· - firstLocalRow == i))

theorem checkLocalRows_ok {rows : List Nat} (h : s.checkLocalRows table rows = .ok ()) :
    ∀ row ∈ rows, ∃ l, s.locals? table = some l ∧ row - firstLocalRow < l.count := by
  unfold checkLocalRows at h
  cases hf : rows.find? (!s.transaction.locals.hasRow table ·) with
  | some row => rw [hf] at h; cases h
  | none =>
    intro row hrow
    have hhas : s.transaction.locals.hasRow table row = true := by
      simpa using List.find?_eq_none.mp hf row hrow
    obtain ⟨l, hl, hc⟩ := (Option.any_eq_true _ _).mp hhas
    exact ⟨l, hl, of_decide_eq_true hc⟩

theorem committedRows_append (rows more : List Nat) :
    committedRows (rows ++ more) = committedRows rows ++ committedRows more :=
  List.filter_append ..

theorem committedRows_local {rows : List Nat} (h : ∀ r ∈ rows, isLocalRow r = true) :
    committedRows rows = [] :=
  List.filter_eq_nil_iff.mpr fun r hr => by simp [h r hr]

/-- Local rows that differ in the marks of deletion at most. -/
def SameValues (locals locals' : LocalTables) : Prop :=
  ∀ j, match locals.get? j, locals'.get? j with
    | some l, some l' => l'.columns = l.columns ∧ l'.count = l.count
    | none, none => True
    | _, _ => False

theorem SameValues.refl (locals : LocalTables) : SameValues locals locals := by
  intro j
  cases locals.get? j with
  | none => trivial
  | some l => exact ⟨rfl, rfl⟩

theorem SameValues.agree {types? : TableId → Option (List ColumnType)}
    {locals locals' : LocalTables} {undo undo' : List UndoRecord} (h : SameValues locals locals')
    (hl : LocalsAgree types? locals undo) (hnodup : (locals'.map (·.1)).Nodup)
    (hc : ∀ j, localCount j undo' = localCount j undo) : LocalsAgree types? locals' undo' := by
  refine ⟨hnodup, fun j => ?_⟩
  have hj := h j
  have hlj := hl.rows j
  rw [hc j]
  cases hg : locals.get? j with
  | none =>
    cases hg' : locals'.get? j with
    | none => rw [hg] at hlj; exact hlj
    | some l' => rw [hg, hg'] at hj; exact hj.elim
  | some l =>
    cases hg' : locals'.get? j with
    | none => rw [hg, hg'] at hj; exact hj.elim
    | some l' =>
      rw [hg, hg'] at hj
      rw [hg] at hlj
      obtain ⟨⟨types, ht, hs⟩, hcount⟩ := hlj
      obtain ⟨columns, count, deleted⟩ := l'
      obtain ⟨rfl, rfl⟩ := hj
      exact ⟨⟨types, ht, LocalRows.sound_withDeleted hs deleted⟩, hcount⟩

/-- A change is recorded unless nothing changed. -/
theorem record_unless (s : Session) (b : Bool) (change : UndoRecord) :
    (if b then s else s.record change) = { s with transaction := { s.transaction with
      undo := s.transaction.undo ++ if b then [] else [change] } } := by
  cases b with
  | true => simp
  | false => rfl

/-- **The local part of a deletion.** -/
theorem deleteOwn_ok (s : Session) (table : TableId) (rows : List Nat) :
    ∃ fresh locals, s.deleteOwn table rows =
        (fresh, ⟨s.database, { s.transaction with locals }⟩) ∧
      (∀ r ∈ fresh, r ∈ rows) ∧ SameValues s.transaction.locals locals ∧
      ((s.transaction.locals.map (·.1)).Nodup → (locals.map (·.1)).Nodup) ∧
      (∀ j, j ≠ table → locals.get? j = s.locals? j) ∧
      ∀ l, s.locals? table = some l → ∃ l', locals.get? table = some l' ∧
        ∀ i, l'.isDeleted i = (l.isDeleted i || rows.any (· - firstLocalRow == i)) := by
  unfold deleteOwn
  cases hl : s.locals? table with
  | none =>
    exact ⟨[], s.transaction.locals, rfl, by simp, SameValues.refl _, id, fun _ _ => rfl,
      fun l h => nomatch h⟩
  | some l =>
    obtain ⟨hcols, hcount, hdel, hsub⟩ := deleteLocals_ok l rows
    refine ⟨_, _, rfl, hsub, fun j => ?_, fun hn => LocalTables.nodup_set hn _ _, fun j hj => ?_,
      fun l₀ hl₀ => ⟨(deleteLocals l rows).2, ?_, fun i => ?_⟩⟩
    · rw [LocalTables.get?_set]
      by_cases hj : j = table
      · rw [if_pos hj, hj, show s.transaction.locals.get? table = some l from hl]
        exact ⟨hcols, hcount⟩
      · rw [if_neg hj]
        exact SameValues.refl s.transaction.locals j
    · exact (LocalTables.get?_set ..).trans (if_neg hj)
    · exact (LocalTables.get?_set ..).trans (if_pos rfl)
    · obtain rfl := Option.some.inj hl₀
      exact hdel i

/-- **Rows that are marked deleted and recorded** leave the database sound. -/
theorem sound_mark (h : s.database.Sound (s.transaction :: others))
    (ht : s.database.catalog.tables[table]? = some t) {t' : Table} {marked deleted : List Nat}
    (hr : Table.Restamps t t' marked (RowStamps.withDeleted s.transaction.id))
    (hfree : ∀ r ∈ marked, ∃ st, t.stamps? r = some st ∧ st.deleted = neverDeleted)
    (hnodup : marked.Nodup) {x' : Transaction} (hid : x'.id = s.transaction.id)
    (hstart : x'.start = s.transaction.start) (hmarked : committedRows deleted = marked)
    (hundo : x'.undo = s.transaction.undo ++ if deleted.isEmpty then [] else [.delete table deleted])
    (hlocals : SameValues s.transaction.locals x'.locals)
    (hkeys : (s.transaction.locals.map (·.1)).Nodup → (x'.locals.map (·.1)).Nodup) :
    Database.Sound { s.database with catalog := s.database.catalog.setTable table t' }
      (x' :: others) := by
  have hrec := h.recorded _ List.mem_cons_self
  have hown := h.owned table t ht
  have hnone : ∀ r ∈ marked, r ∉ s.transaction.deletedRows table := by
    intro r hr
    obtain ⟨st, hst, hd⟩ := hfree r hr
    have hrow := hown.rows r
    rw [hst] at hrow
    exact hrow.free hd h.ids_lt _ List.mem_cons_self
  -- What the records say with the change among them, if there is one.
  have hdel : ∀ j, x'.deletedRows j =
      s.transaction.deletedRows j ++ if table = j then marked else [] := by
    intro j
    rw [Transaction.deletedRows, hundo, List.flatMap_append, ← Transaction.deletedRows]
    by_cases he : deleted.isEmpty = true
    · obtain rfl := List.isEmpty_iff.mp he
      rw [← hmarked]
      simp [committedRows]
    · rw [if_neg he, List.flatMap_singleton, UndoRecord.deletedRows, hmarked]
  have himg : ∀ j i r, x'.images j i r = s.transaction.images j i r := by
    intro j i r
    rw [Transaction.images, hundo, List.flatMap_append, valuesFor_append, ← Transaction.images]
    split <;> simp
  have hcount : ∀ j, localCount j x'.undo = localCount j s.transaction.undo := by
    intro j
    rw [hundo, localCount_append]
    split <;> simp [localCount]
  refine h.change x' ht hr.keeps hid hstart ⟨?_, hlocals.agree hrec.locals (hkeys hrec.locals.nodup) hcount,
    fun j => ?_⟩
    (hown.mark h.ids_lt hr hfree hid hstart (fun r => ?_) fun i r => himg table i r)
    fun j hj => ⟨fun r => ?_, fun i r => himg j i r⟩
  · rw [hundo]
    split
    · rw [List.append_nil]
      exact hrec.undoable
    · exact .snoc hrec.undoable (by rw [UndoRecord.UndoableAfter, types_ok ht]; rfl)
  · rw [hdel j]
    split
    · rename_i hj
      subst hj
      exact List.nodup_append.mpr ⟨hrec.nodup table, hnodup,
        fun a ha b hb he => hnone b hb (he ▸ ha)⟩
    · rw [List.append_nil]
      exact hrec.nodup j
  · rw [hdel table, if_pos rfl, List.mem_append]
  · rw [hdel j, if_neg (Ne.symm hj), List.append_nil]

/-- **A deletion** marks rows, or is refused and changes nothing. -/
theorem delete_cases (h : s.database.Sound (s.transaction :: others)) (hw : s.transaction.Writing)
    (ht : s.database.catalog.tables[table]? = some t) (rows : List Nat) :
    (∃ e, s.delete table rows = (.error e, s)) ∨
      ∃ n s' t' marked, s.delete table rows = (.ok n, s') ∧ Deletes s s' table t t' rows marked ∧
        s'.database.Sound (s'.transaction :: others) ∧
        Database.Quiet s.transaction.id s.database s'.database := by
  have hts := (h.catalog.tables table t ht).1
  unfold delete
  rw [whileActive_writing hw]
  dsimp only
  cases hcheck : s.checkLocalRows table (rows.filter isLocalRow) with
  | error e => exact Or.inl ⟨e, rfl⟩
  | ok u =>
    have hlocal := checkLocalRows_ok hcheck
    dsimp only
    rw [onDatabase, Database.change_eq ht]
    cases hdel : t.delete (committedRows rows) s.transaction.snapshot with
    | error e =>
      refine Or.inl ⟨e, ?_⟩
      simp only [Attempt.ofExcept, Catalog.setTable_self ht, Attempt.andThen_error]
    | ok found =>
      obtain ⟨marked, t'⟩ := found
      obtain ⟨hnodup, hwritable, hskipped, hr⟩ := Table.delete_ok hts hdel
      refine Or.inr ?_
      simp only [Attempt.ofExcept, Attempt.andThen_ok]
      have hfree : ∀ r ∈ marked, ∃ st, t.stamps? r = some st ∧ st.deleted = neverDeleted := by
        intro r hr
        obtain ⟨st, hst, -, hd⟩ := (hwritable r hr).2.stamps
        exact ⟨st, hst, hd⟩
      have hquiet : Database.Quiet s.transaction.id s.database
          { s.database with catalog := s.database.catalog.setTable table t' } := by
        refine h.quiet_setTable ht hr.keeps fun snap hs hn => hr.looks fun r hm st hst => ?_
        obtain ⟨st', hst', hd⟩ := hfree r hm
        obtain rfl := Option.some.inj (hst.symm.trans hst')
        exact Snapshot.stamps?_withDeleted hs (hd ▸ hn)
      obtain ⟨fresh, locals, he, hsub, hsame, hkeys, hothers, hsome⟩ := deleteOwn_ok
        ⟨{ s.database with catalog := s.database.catalog.setTable table t' }, s.transaction⟩ table
        (rows.filter isLocalRow)
      -- Marked rows are in the table, and the others are not.
      have hmarked : committedRows (marked ++ fresh) = marked := by
        rw [committedRows_append,
          committedRows_local fun r hr => (List.mem_filter.mp (hsub r hr)).2, List.append_nil]
        exact List.filter_eq_self.mpr fun r hr => (List.mem_filter.mp (hwritable r hr).1).2
      rw [he]
      dsimp only
      rw [record_unless]
      refine ⟨_, _, t', marked, rfl, ⟨rfl, rfl, hwritable, hskipped, hr, hothers, fun hn => ?_,
        fun l hl => ?_⟩, sound_mark h ht hr hfree hnodup rfl rfl hmarked rfl hsame hkeys, hquiet⟩
      · have hj := hsame table
        rw [show s.transaction.locals.get? table = none from hn] at hj
        refine ⟨?_, fun row hrow => ?_⟩
        · cases hg : locals.get? table with
          | none => exact hg
          | some l' => rw [hg] at hj; exact hj.elim
        · cases hl : isLocalRow row with
          | false => rfl
          | true =>
            obtain ⟨l, hl', -⟩ := hlocal row (List.mem_filter.mpr ⟨hrow, hl⟩)
            rw [hn] at hl'
            cases hl'
      · obtain ⟨l', hl', hdeleted⟩ := hsome l hl
        have hj := hsame table
        rw [show s.transaction.locals.get? table = some l from hl, hl'] at hj
        refine ⟨fun row hrow hlr => ?_, l', hl', hj.1, hj.2, hdeleted⟩
        obtain ⟨l₀, hl₀, hlt⟩ := hlocal row (List.mem_filter.mpr ⟨hrow, hlr⟩)
        obtain rfl := Option.some.inj (hl.symm.trans hl₀)
        exact hlt

/-! ## Updating -/

/-- Local rows are numbered from `firstLocalRow` on. -/
theorem eq_localRow_iff {row : Nat} (h : isLocalRow row = true) (m : Nat) :
    row = firstLocalRow + m ↔ m = row - firstLocalRow := by
  have hle : firstLocalRow ≤ row := of_decide_eq_true h
  generalize firstLocalRow = first at hle ⊢
  omega

theorem isLocalRow_add (m : Nat) : isLocalRow (firstLocalRow + m) = true :=
  decide_eq_true (Nat.le_add_right ..)

/-- **Local rows are written over,** those that are deleted apart. -/
theorem updateLocals_ok {types : List ColumnType} {column : Nat} {type : ColumnType}
    (ht : types[column]? = some type) {l : LocalRows} (h : l.Sound types)
    (rows : List (Nat × Scalar)) (hrows : ∀ p ∈ rows, isLocalRow p.1 = true ∧
      p.1 - firstLocalRow < l.count ∧ p.2.fits type = true) :
    ∃ pairs l', updateLocals column l rows = (.ok pairs, l') ∧ l'.Sound types ∧
      l'.count = l.count ∧ l'.deleted = l.deleted ∧
      (∀ p ∈ pairs, isLocalRow p.1 = true ∧ p.1 - firstLocalRow < l.count ∧
        p.2.fits type = true) ∧
      ∀ k m, m < l.count → l'.get? k m =
        if k = column ∧ l.isDeleted m = false then
          (valuesFor (firstLocalRow + m) rows).getLast?.or (l.get? k m)
        else l.get? k m := by
  induction rows generalizing l with
  | nil => exact ⟨[], l, rfl, h, rfl, rfl, by simp, by simp⟩
  | cons p rest ih =>
    obtain ⟨row, value⟩ := p
    obtain ⟨hlr, hlt, hfit⟩ := hrows _ List.mem_cons_self
    have hiff := eq_localRow_iff hlr
    by_cases hd : l.isDeleted (row - firstLocalRow) = true
    · obtain ⟨pairs, l', he, hs, hc, hdel, hpairs, hget⟩ := ih h fun q hq =>
        hrows q (List.mem_cons_of_mem _ hq)
      refine ⟨pairs, l', by simp only [updateLocals, hd, if_true, he], hs, hc, hdel, hpairs,
        fun k m hm => ?_⟩
      rw [hget k m hm, valuesFor_cons]
      by_cases hkm : k = column ∧ l.isDeleted m = false
      · rw [if_pos hkm, if_pos hkm, if_neg]
        intro hrm
        rw [(hiff m).mp hrm, hd] at hkm
        exact Bool.noConfusion hkm.2
      · rw [if_neg hkm, if_neg hkm]
    · obtain ⟨before, hbefore, hbfit⟩ := h.get? ht hlt
      obtain ⟨l₁, hset, hs₁, hc₁, hd₁, hget₁⟩ := LocalRows.set_ok h ht hlt hfit
      obtain ⟨pairs, l', he, hs, hc, hdel, hpairs, hget⟩ := ih hs₁ fun q hq => by
        rw [hc₁]
        exact hrows q (List.mem_cons_of_mem _ hq)
      refine ⟨(row, before) :: pairs, l', ?_, hs, hc.trans hc₁, hdel.trans hd₁,
        List.forall_mem_cons.mpr ⟨⟨hlr, hlt, hbfit⟩, fun q hq => hc₁ ▸ hpairs q hq⟩,
        fun k m hm => ?_⟩
      · simp only [updateLocals, hd, hbefore, hset, he, map_ok, Bool.false_eq_true, if_false]
      · rw [hget k m (hc₁.symm ▸ hm), hget₁ k m hm, valuesFor_cons]
        have hdm : l₁.isDeleted m = l.isDeleted m := by
          rw [LocalRows.isDeleted, LocalRows.isDeleted, hd₁]
        rw [hdm]
        by_cases hkm : k = column ∧ l.isDeleted m = false
        · rw [if_pos hkm, if_pos hkm]
          by_cases hrm : m = row - firstLocalRow
          · rw [if_pos ⟨hkm.1, hrm⟩, if_pos ((hiff m).mpr hrm), List.getLast?_cons]
            cases (valuesFor (firstLocalRow + m) rest).getLast? <;> rfl
          · rw [if_neg fun hh => hrm hh.2, if_neg fun hh => hrm ((hiff m).mp hh)]
        · rw [if_neg hkm, if_neg hkm, if_neg]
          exact fun hh => hkm ⟨hh.1, hh.2 ▸ Bool.eq_false_iff.mpr hd⟩

theorem checkValues_ok {column : Nat} {rows : List Nat} {values : ValueVector}
    (h : checkValues t column rows values = .ok ()) : t.types[column]? = some values.type := by
  unfold checkValues at h
  cases ht : t.types[column]? with
  | none => rw [ht] at h; cases h
  | some type =>
    rw [ht] at h
    dsimp only at h
    split at h
    · cases h
    · rename_i hne
      rw [not_not.mp hne]

theorem firstValues?_ok {values : ValueVector} {n : Nat} {xs : List Scalar}
    (h : values.firstValues? n = some xs) :
    xs.length = n ∧ ∀ x ∈ xs, ∃ i, values.get? i = some x := by
  unfold ValueVector.firstValues? at h
  split at h
  · cases h
  · have hall := forall₂_of_mapM h
    refine ⟨by simpa using hall.length_eq.symm, fun x hx => ?_⟩
    obtain ⟨k, hk, rfl⟩ := List.mem_iff_getElem.mp hx
    exact ⟨_, (List.forall₂_iff_get.mp hall).2 k (hall.length_eq ▸ hk) hk⟩

/-- What an update did that was not refused: it has written to the rows of the table that the writer
did not see as deleted, and to its local rows. -/
structure Overwrites (s s' : Session) (table : TableId) (t t' : Table) (column : Nat)
    (pairs targets : List (Nat × Scalar)) (before : List Scalar) : Prop where
  database_eq : ∃ decoded, s'.database =
    { s.database.remember decoded with catalog := s.database.catalog.setTable table t' }
  transaction_eq : s'.transaction =
    { s.transaction with locals := s'.transaction.locals, undo := s'.transaction.undo }
  type : ∃ type, t.types[column]? = some type ∧ ∀ p ∈ pairs, p.2.fits type = true
  updates : Table.Updates t t' s.database.source column s.transaction.snapshot
    (pairs.filter (!isLocalRow ·.1)) targets before
  others_eq : ∀ j, j ≠ table → s'.locals? j = s.locals? j
  none_eq : s.locals? table = none →
    s'.locals? table = none ∧ ∀ p ∈ pairs, isLocalRow p.1 = false
  some_eq : ∀ l, s.locals? table = some l →
    (∀ p ∈ pairs, isLocalRow p.1 = true → p.1 - firstLocalRow < l.count) ∧
    ∃ l', s'.locals? table = some l' ∧ l'.count = l.count ∧ l'.deleted = l.deleted ∧
      ∀ k m, m < l.count → l'.get? k m =
        if k = column ∧ l.isDeleted m = false then
          (valuesFor (firstLocalRow + m) pairs).getLast?.or (l.get? k m)
        else l.get? k m

theorem valuesFor_filter {keep : Nat → Bool} {row : Nat} (h : keep row = true)
    (pairs : List (Nat × Scalar)) :
    valuesFor row (pairs.filter (keep ·.1)) = valuesFor row pairs := by
  induction pairs with
  | nil => rfl
  | cons p rest ih =>
    rw [List.filter_cons, valuesFor_cons]
    by_cases hp : p.1 = row
    · rw [if_pos hp, hp, if_pos h, valuesFor_cons, if_pos hp, ih]
    · rw [if_neg hp]
      split
      · rw [valuesFor_cons, if_neg hp, ih]
      · exact ih

/-- The rows of a table among those that an update records. -/
theorem imagePairs_update {column : Nat} {rows : List Nat} {before : List Scalar}
    {more : List (Nat × Scalar)} (hrows : ∀ r ∈ rows, isLocalRow r = false)
    (hlen : rows.length = before.length) (hmore : ∀ p ∈ more, isLocalRow p.1 = true)
    (table j : TableId) (i : Nat) :
    (UndoRecord.update table column (rows ++ more.map (·.1)) (before ++ more.map (·.2))).imagePairs
      j i = if table = j ∧ column = i then rows.zip before else [] := by
  have hkeep : (rows.zip before).filter (!isLocalRow ·.1) = rows.zip before :=
    List.filter_eq_self.mpr fun p hp => by simp [hrows p.1 (List.of_mem_zip hp).1]
  have hdrop : more.filter (!isLocalRow ·.1) = [] :=
    List.filter_eq_nil_iff.mpr fun p hp => by simp [hmore p hp]
  rw [UndoRecord.imagePairs, List.zip_append hlen, zip_fst_snd, List.filter_append, hkeep, hdrop,
    List.append_nil]

/-- **Rows that are written over and recorded** leave the database sound. -/
theorem sound_write {decoded : Decoded}
    (h : (s.database.remember decoded).Sound (s.transaction :: others))
    (ht : s.database.catalog.tables[table]? = some t) {t' : Table} {column : Nat}
    {pairs targets more : List (Nat × Scalar)} {before : List Scalar} {type : ColumnType}
    (hu : Table.Updates t t' s.database.disk.source column s.transaction.snapshot pairs targets
      before)
    (hvalue : ∀ p ∈ targets, ∃ y,
      t.value s.database.disk.source column p.1 s.transaction.snapshot = .ok y)
    (htargets : ∀ p ∈ targets, isLocalRow p.1 = false) (htype : t.types[column]? = some type)
    (hmore : ∀ p ∈ more, isLocalRow p.1 = true ∧
      p.1 - firstLocalRow < localCount table s.transaction.undo ∧ p.2.fits type = true)
    {x' : Transaction} (hid : x'.id = s.transaction.id) (hstart : x'.start = s.transaction.start)
    (hundo : x'.undo = s.transaction.undo ++
      if (targets.map (·.1) ++ more.map (·.1)).isEmpty then []
      else [.update table column (targets.map (·.1) ++ more.map (·.1))
        (before ++ more.map (·.2))])
    (hlocals : LocalsAgree s.database.catalog.types? x'.locals s.transaction.undo) :
    Database.Sound
      { s.database.remember decoded with catalog := s.database.catalog.setTable table t' }
      (x' :: others) := by
  have hrec := h.recorded _ List.mem_cons_self
  have hown := h.owned table t ht
  have hrows : ∀ r ∈ targets.map (·.1), isLocalRow r = false := by
    intro r hr
    obtain ⟨p, hp, rfl⟩ := List.mem_map.mp hr
    exact htargets p hp
  have hlen : (targets.map (·.1)).length = before.length := by simp [hu.length_before]
  have hdel : ∀ j, x'.deletedRows j = s.transaction.deletedRows j := by
    intro j
    rw [Transaction.deletedRows, hundo, List.flatMap_append, ← Transaction.deletedRows]
    split <;> simp
  have himg : ∀ j i r, x'.images j i r = s.transaction.images j i r ++
      if table = j ∧ column = i then valuesFor r ((targets.map (·.1)).zip before) else [] := by
    intro j i r
    rw [Transaction.images, hundo, List.flatMap_append, valuesFor_append, ← Transaction.images]
    split
    · rename_i hnil
      obtain ⟨hnil, -⟩ := List.append_eq_nil_iff.mp (List.isEmpty_iff.mp hnil)
      rw [hnil]
      simp
    · rw [List.flatMap_singleton,
        imagePairs_update hrows hlen (fun p hp => (hmore p hp).1) table j i]
      split <;> rfl
  have hcount : ∀ j, localCount j x'.undo = localCount j s.transaction.undo := by
    intro j
    rw [hundo, localCount_append]
    split <;> simp [localCount]
  refine h.change x' ht hu.writes.keeps hid hstart ⟨?_, hlocals.of_count hcount, fun j => ?_⟩
    (hown.write (h.catalog.tables table t ht).1 h.others_ne h.last_lt_ids
      (h.ids _ List.mem_cons_self).2.2 hu hvalue hid hstart (fun r => by rw [hdel]) fun i r => ?_) fun j hj => ⟨fun r => by rw [hdel], fun i r => ?_⟩
  · rw [hundo]
    split
    · rw [List.append_nil]
      exact hrec.undoable
    · refine .snoc hrec.undoable ⟨by simp [hu.length_before], t.types, type, types_ok ht, htype,
        fun p hp hlocal => ?_⟩
      rw [List.zip_append hlen, zip_fst_snd] at hp
      rcases List.mem_append.mp hp with hp | hp
      · rw [hrows p.1 (List.of_mem_zip hp).1] at hlocal
        cases hlocal
      · exact (hmore p hp).2
  · rw [hdel]
    exact hrec.nodup j
  · rw [himg table i r]
    simp only [true_and, eq_comm]
  · rw [himg j i r, if_neg fun hh => hj hh.1.symm, List.append_nil]

/-- The local part of an update. -/
theorem updateOwn_ok (h : s.database.Sound (s.transaction :: others))
    (ht : s.database.catalog.tables[table]? = some t) {column : Nat} {type : ColumnType}
    (htype : t.types[column]? = some type) (pairs : List (Nat × Scalar))
    (hpairs : ∀ p ∈ pairs, isLocalRow p.1 = true ∧ p.2.fits type = true ∧
      ∃ l, s.locals? table = some l ∧ p.1 - firstLocalRow < l.count)
    (db : Database) :
    ∃ more locals, updateOwn ⟨db, s.transaction⟩ table column pairs =
        (.ok more, ⟨db, { s.transaction with locals }⟩) ∧
      (∀ p ∈ more, isLocalRow p.1 = true ∧
        p.1 - firstLocalRow < localCount table s.transaction.undo ∧ p.2.fits type = true) ∧
      LocalsAgree s.database.catalog.types? locals s.transaction.undo ∧
      (∀ j, j ≠ table → locals.get? j = s.locals? j) ∧
      (s.locals? table = none → locals.get? table = none) ∧
      ∀ l, s.locals? table = some l → ∃ l', locals.get? table = some l' ∧ l'.count = l.count ∧
        l'.deleted = l.deleted ∧ ∀ k m, m < l.count → l'.get? k m =
          if k = column ∧ l.isDeleted m = false then
            (valuesFor (firstLocalRow + m) pairs).getLast?.or (l.get? k m)
          else l.get? k m := by
  have hrec := h.recorded _ List.mem_cons_self
  have hl := locals_ok h ht
  unfold updateOwn
  cases hg : s.locals? table with
  | none =>
    have hg' : (⟨db, s.transaction⟩ : Session).locals? table = none := hg
    rw [hg']
    exact ⟨[], s.transaction.locals, rfl, by simp, hrec.locals, fun _ _ => rfl, fun _ => hg,
      fun l hh => nomatch hh⟩
  | some l =>
    have hg' : (⟨db, s.transaction⟩ : Session).locals? table = some l := hg
    rw [hg']
    rw [hg] at hl
    obtain ⟨hs, hc⟩ := hl
    obtain ⟨more, l', he, hs', hc', hd', hmore, hget⟩ := updateLocals_ok htype hs
      pairs fun p hp => by
        obtain ⟨hlr, hfit, l₀, hl₀, hlt⟩ := hpairs p hp
        obtain rfl := Option.some.inj (hg.symm.trans hl₀)
        exact ⟨hlr, hlt, hfit⟩
    dsimp only
    rw [he]
    refine ⟨more, s.transaction.locals.set table l', rfl, fun p hp => ?_,
      hrec.locals.set (types_ok ht) hs' (hc'.trans hc) fun _ _ => rfl, fun j hj => ?_,
      (fun hn => nomatch hn), fun l₀ hl₀ => ⟨l', ?_, ?_⟩⟩
    · obtain ⟨hlr, hlt, hfit⟩ := hmore p hp
      exact ⟨hlr, hc ▸ hlt, hfit⟩
    · exact (LocalTables.get?_set ..).trans (if_neg hj)
    · exact (LocalTables.get?_set ..).trans (if_pos rfl)
    · obtain rfl := Option.some.inj hl₀
      exact ⟨hc', hd', hget⟩

/-- What an update does behind its checks: it writes over rows of the table, then over local ones, and
records what stood there. -/
def overwrite (s : Session) (table : TableId) (column : Nat) (rest own : List (Nat × Scalar)) :
    Attempt TransactionError Session Nat :=
  let write source (t : Table) :=
    t.update source column (rest.map (·.1)) (rest.map (·.2)) s.transaction.snapshot
  (s.onDatabase fun db => db.changeReading table write).andThen fun (rows, before) s =>
    (s.updateOwn table column own).andThen fun more s =>
      let rows := rows ++ more.map (·.1)
      let before := before ++ more.map (·.2)
      (.ok rows.length, if rows.isEmpty then s else s.record (.update table column rows before))

/-- **An update checks** its values and the local rows among its rows before it writes. -/
theorem update_checked (hw : s.transaction.Writing)
    (ht : s.database.catalog.tables[table]? = some t) (column : Nat) (rows : List Nat)
    {values : ValueVector} (hvalues : values.Typed) :
    (∃ e, s.update table column rows values = (.error e, s)) ∨
      ∃ xs, values.firstValues? rows.length = some xs ∧ t.types[column]? = some values.type ∧
        (∀ p ∈ rows.zip xs, p.2.fits values.type = true) ∧
        (∀ p ∈ rows.zip xs, isLocalRow p.1 = true →
          ∃ l, s.locals? table = some l ∧ p.1 - firstLocalRow < l.count) ∧
        s.update table column rows values = s.overwrite table column
          ((rows.zip xs).filter (!isLocalRow ·.1)) ((rows.zip xs).filter (isLocalRow ·.1)) := by
  have htable : s.table table = t := Catalog.table_of_some ht
  unfold update
  rw [whileActive_writing hw, htable]
  cases hcheck : checkValues t column rows values with
  | error e => exact Or.inl ⟨e, rfl⟩
  | ok u =>
  cases hfirst : values.firstValues? rows.length with
  | none => exact Or.inl ⟨_, rfl⟩
  | some xs =>
  dsimp only
  rw [List.partition_eq_filter_filter]
  dsimp only
  cases hlocal : s.checkLocalRows table
      (((rows.zip xs).filter (isLocalRow ·.1)).map (·.1)) with
  | error e => exact Or.inl ⟨e, rfl⟩
  | ok u' =>
  refine Or.inr ⟨xs, rfl, checkValues_ok hcheck, fun p hp => ?_, fun p hp hlr => ?_, rfl⟩
  · obtain ⟨i, hi⟩ := (firstValues?_ok hfirst).2 p.2 (List.of_mem_zip hp).2
    exact hvalues i _ hi
  · exact checkLocalRows_ok hlocal p.1 (List.mem_map_of_mem (List.mem_filter.mpr ⟨hp, hlr⟩))

/-- **An update** writes over rows, or is refused and changes nothing but what is kept of what was
read. -/
theorem update_cases (h : s.database.Sound (s.transaction :: others)) (hw : s.transaction.Writing)
    (ht : s.database.catalog.tables[table]? = some t) (column : Nat) (rows : List Nat)
    {values : ValueVector} (hvalues : values.Typed) :
    (∃ e decoded, s.update table column rows values =
        (.error e, ⟨s.database.remember decoded, s.transaction⟩) ∧
        (s.database.remember decoded).Sound (s.transaction :: others)) ∨
      ∃ n s' t' xs targets before, s.update table column rows values = (.ok n, s') ∧
        values.firstValues? rows.length = some xs ∧
        Overwrites s s' table t t' column (rows.zip xs) targets before ∧
        s'.database.Sound (s'.transaction :: others) ∧
        Database.Quiet s.transaction.id s.database s'.database := by
  have hts := (h.catalog.tables table t ht).1
  have hcells := h.owned table t ht
  rcases update_checked hw ht column rows hvalues with ⟨e, he⟩ | ⟨xs, hxs, htype, hfit, hown, he⟩
  · exact Or.inl ⟨e, [], he, h⟩
  rw [he, overwrite, onDatabase]
  have hu := Table.update_cases hts (h.readable ht) column
    (((rows.zip xs).filter (!isLocalRow ·.1)).map (·.1))
    (((rows.zip xs).filter (!isLocalRow ·.1)).map (·.2)) s.transaction.snapshot
  have hhonest : Reading.Honest s.database.source s.database.SafeFile (t.update s.database.source
      column (((rows.zip xs).filter (!isLocalRow ·.1)).map (·.1))
      (((rows.zip xs).filter (!isLocalRow ·.1)).map (·.2)) s.transaction.snapshot) :=
    Table.honest_update hcells.safe _ _ _ _
  rw [zip_fst_snd] at hu
  generalize hwrite : t.update s.database.source column _ _ s.transaction.snapshot = write
    at hu hhonest
  rcases hu with ⟨e, hresult⟩ | ⟨targets, before, t', -, hresult, hu⟩
  · refine Or.inl ⟨e, _, ?_, h.remember hhonest⟩
    rw [Database.changeReading_eq ht (hwrite ▸ hresult), hwrite, Catalog.setTable_self ht]
    rfl
  refine Or.inr ?_
  rw [Database.changeReading_eq ht (hwrite ▸ hresult), hwrite, Attempt.andThen_ok]
  obtain ⟨more, locals, hmoreeq, hmore, hagree, hothers, hnone, hsome⟩ := updateOwn_ok h ht htype
    ((rows.zip xs).filter (isLocalRow ·.1)) (fun p hp => by
      obtain ⟨hp, hlr⟩ := List.mem_filter.mp hp
      exact ⟨hlr, hfit p hp, hown p hp hlr⟩)
    { s.database.remember write.decoded with catalog := s.database.catalog.setTable table t' }
  simp only [hmoreeq, Attempt.andThen_ok]
  rw [record_unless]
  have htargets : ∀ p ∈ targets, isLocalRow p.1 = false := by
    intro p hp
    obtain ⟨keep, heq, -⟩ := hu.targets_eq
    rw [heq] at hp
    simpa using (List.mem_filter.mp (List.mem_filter.mp hp).1).2
  have hvalue : ∀ p ∈ targets, ∃ y,
      t.value s.database.disk.source column p.1 s.transaction.snapshot = .ok y := by
    intro p hp
    obtain ⟨c, hc, hw⟩ := hu.column
    exact hcells.readable.value hts (List.getElem?_eq_some_iff.mp hc).1 (hw p hp).1.lt _
  refine ⟨_, _, t', xs, targets, before, rfl, hxs, ⟨⟨_, rfl⟩, rfl, ⟨values.type, htype, hfit⟩, hu,
    hothers, fun hn => ⟨hnone hn, fun p hp => ?_⟩, fun l hl => ⟨fun p hp hlr => ?_, ?_⟩⟩,
    sound_write (h.remember hhonest) ht (hu.congr fun r => (h.under_eq ht column r).symm) hvalue
      htargets htype hmore rfl rfl rfl hagree,
    (h.quiet_remember _ _).trans ((h.remember hhonest).quiet_setTable ht hu.writes.keeps
      fun snap hs _ => hu.writes.looks hs)⟩
  · rw [Bool.eq_false_iff]
    intro hlr
    obtain ⟨l, hl, -⟩ := hown p hp hlr
    cases hn.symm.trans hl
  · obtain ⟨l₀, hl₀, hlt⟩ := hown p hp hlr
    obtain rfl := Option.some.inj (hl.symm.trans hl₀)
    exact hlt
  · obtain ⟨l', hl', hc', hd', hget⟩ := hsome l hl
    refine ⟨l', hl', hc', hd', fun k m hm => ?_⟩
    rw [hget k m hm, valuesFor_filter (isLocalRow_add m)]

end Session
end ColumnStore
