/-
# What the requests of a transaction tell

The requests that a transaction has made tell what it has done to the rows of a table (`Tells`) and
which rows it has inserted itself.  Nobody else changes that.
-/

import ColumnStore.Proofs.Database.Effects

namespace ColumnStore

/-! ## Rows of the table -/

/-- A row whose deletion was committed by a time. -/
def Table.GoneBy (t : Table) (r : Nat) (time : Stamp) : Prop :=
  ∃ st, t.stamps? r = some st ∧ st.deleted ≤ time

/-- Requests of a transaction make of the rows that it found what it has done to them in a table.  The
rows that were deleted before it began it has not found. -/
def Transaction.Tells (x : Transaction) (t : Table) (qs : List Request) : Prop :=
  ∀ r v, (t.GoneBy r x.start → v = none) → Request.onRow qs r v = x.onRow t r v

/-- What a transaction has done to a table, and the rows that were deleted before it began, are the
same in two states of the table. -/
structure Table.Leaves (x : Transaction) (t t' : Table) : Prop where
  deleted : ∀ r, (t'.stamps? r).any (·.deleted = x.id) = (t.stamps? r).any (·.deleted = x.id)
  written : ∀ i r, newestOf x.id (t'.chain i r) = newestOf x.id (t.chain i r)
  gone : ∀ r, t.GoneBy r x.start → t'.GoneBy r x.start

namespace Table

variable {last time : Stamp} {active : List Transaction} {id : TableId} {t t' : Table}
  {base : Source} {safe : StoredValues → Prop} {x y : Transaction}

theorem Leaves.refl (x : Transaction) (t : Table) : Leaves x t t :=
  ⟨fun _ => rfl, fun _ _ => rfl, fun _ => id⟩

theorem Leaves.onRow_eq (h : Leaves x t t') (r : Nat) (v : Option Row) :
    x.onRow t' r v = x.onRow t r v := by
  rw [Transaction.onRow, Transaction.onRow, h.deleted]
  simp only [h.written]

/-- **What is told of a transaction** stays true when others do something. -/
theorem Leaves.tells (h : Leaves x t t') {qs : List Request} (ht : x.Tells t qs) :
    x.Tells t' qs := fun r v hv =>
  (ht r v fun hg => hv (h.gone r hg)).trans (h.onRow_eq r v).symm

theorem newestOf_append_other {id z : Stamp} (hne : z ≠ id) (chain : List Version)
    (values : List Scalar) : newestOf id (chain ++ versionsOf z values) = newestOf id chain := by
  induction values using List.reverseRecOn with
  | nil => simp
  | append_singleton values x ih =>
    rw [versionsOf, List.map_append, List.map_singleton, ← List.append_assoc, newestOf_snoc,
      if_neg hne]
    exact ih

/-- **What others do short of a commit** leaves a transaction alone. -/
theorem Touches.leaves (h : Touches y t t') (hne : y.id ≠ x.id) (hx : x.id < neverDeleted)
    (hy : x.start < y.id) (hstart : x.start < neverDeleted) : Leaves x t t' := by
  cases h with
  | same h => exact h ▸ Leaves.refl x t
  | marks rows h hw =>
    refine ⟨fun r => ?_, fun i r => by rw [h.chain_eq], fun r hgone => ?_⟩
    · rw [h.stamps_eq]
      split
      · rename_i hr
        obtain ⟨st, hst, -, hd⟩ := (hw r hr).stamps
        simp [hst, hd, hne, Nat.ne_of_gt hx]
      · rfl
    · obtain ⟨st, hst, hd⟩ := hgone
      refine ⟨st, ?_, hd⟩
      rw [h.stamps_eq, if_neg, hst]
      intro hr
      obtain ⟨st', hst', -, hd'⟩ := (hw r hr).stamps
      obtain rfl := Option.some.inj (hst.symm.trans hst')
      exact absurd (hd' ▸ hd) (Nat.not_le_of_lt hstart)
  | writes source i pairs targets before h =>
    refine ⟨fun r => by rw [h.writes.stamps_eq], fun j r => ?_, fun r hgone => ?_⟩
    · rw [h.writes.chain_eq]
      split
      · exact newestOf_append_other hne _ _
      · rfl
    · obtain ⟨st, hst, hd⟩ := hgone
      exact ⟨st, by rw [h.writes.stamps_eq, hst], hd⟩
  | erases h =>
    refine ⟨fun r => ?_, fun i r => ?_, fun r hgone => ?_⟩
    · rw [h.stamps_eq, Option.any_map]
      cases t.stamps? r with
      | none => rfl
      | some st =>
        rw [Option.any_some, Option.any_some, RowStamps.without]
        split
        · rename_i hd
          simp [hd, hne, Nat.ne_of_gt hx]
        · rfl
    · rw [h.chain_eq, newestOf, newestOf, List.filter_filter]
      refine congrArg (Option.map _ ·.getLast?) (List.filter_congr fun v _ => ?_)
      by_cases hv : v.stamp = x.id
      · simp [hv, hne.symm]
      · simp [hv]
    · obtain ⟨st, hst, hd⟩ := hgone
      refine ⟨st, ?_, hd⟩
      rw [h.stamps_eq, hst, Option.map_some, RowStamps.without, if_neg]
      exact fun heq => absurd (heq ▸ hd) (Nat.not_le_of_lt hy)

/-- **The commits of others** leave a transaction alone. -/
theorem Commits.leaves (h : Commits y time id t t') (hne : y.id ≠ x.id) (htime : time < x.id)
    (hx : x.id < neverDeleted) (hy : x.start < y.id) : Leaves x t t' := by
  refine ⟨fun r => ?_, fun i r => ?_, fun r hgone => ?_⟩
  · rcases Nat.lt_or_ge r t.rows with hr | hr
    · rw [h.stamps_old r hr, Option.any_map]
      refine congrArg (Option.any · (t.stamps? r)) (funext fun st => ?_)
      rw [RowStamps.commitDelete]
      split
      · rename_i hd
        simp [hd, hne, Nat.ne_of_lt htime]
      · rfl
    · rw [h.stamps_new r hr, stamps?_eq_none.mpr hr]
      split
      · simp [Nat.ne_of_gt hx]
      · rfl
  · rw [h.chain_eq]
    generalize t.chain i r = chain
    induction chain using List.reverseRecOn with
    | nil => rfl
    | append_singleton chain v ih =>
      rw [List.map_append, List.map_singleton, newestOf_snoc, newestOf_snoc, ih,
        Overlay.restamp]
      by_cases hv : v.stamp = y.id
      · simp [hv, hne, Nat.ne_of_lt htime]
      · simp [hv]
  · obtain ⟨st, hst, hd⟩ := hgone
    refine ⟨st, ?_, hd⟩
    rw [h.stamps_old r (of_stamps? hst), hst, Option.map_some, RowStamps.commitDelete, if_neg]
    exact fun heq => absurd (heq ▸ hd) (Nat.not_le_of_lt hy)

end Table

namespace Transaction

variable {x : Transaction} {t t' : Table} {qs : List Request}

theorem Tells.congr {x' : Transaction} (h : x.Tells t qs) (hid : x'.id = x.id)
    (hstart : x'.start = x.start) : x'.Tells t qs := by
  intro r v hv
  rw [h r v (hstart ▸ hv), onRow, onRow, hid]

/-- An insertion is not about rows that are there. -/
theorem Tells.insert (h : x.Tells t qs) (id table : TableId) (c : Chunk) :
    x.Tells t (qs ++ Request.about id (some (table, .insert c))) := by
  intro r v hv
  rw [← h r v hv, Request.about]
  split
  · rw [Request.onRow_snoc]
    split
    · rename_i hlocal
      rw [Request.onRow, if_pos hlocal]
    · rfl
  · rw [List.append_nil]

/-- Rows that a request is not about stay as they are. -/
theorem onRow_of_same {r : Nat} (hstamps : t'.stamps? r = t.stamps? r)
    (hchain : ∀ i, t'.chain i r = t.chain i r) (v : Option Row) :
    x.onRow t' r v = x.onRow t r v := by
  rw [onRow, onRow, hstamps]
  simp only [hchain]

/-- A transaction that sees a row as deleted has deleted it, unless that was committed before it
began. -/
theorem onRow_of_seenDeleted {r : Nat} (h : t.SeenDeleted r x.snapshot) {v : Option Row}
    (hv : t.GoneBy r x.start → v = none) : x.onRow t r v = none := by
  obtain ⟨st, hst, -, -, hd⟩ := h
  rcases sees_iff.mp hd with hd | hd
  · rw [hv ⟨st, hst, hd⟩, onRow_none]
  · have hown : st.deleted = x.id := hd
    rw [onRow, hst, if_pos (by simp [hown])]

/-- **A deletion tells which rows the transaction has marked.** -/
theorem Tells.delete (h : x.Tells t qs) (hstart : x.start < neverDeleted) {rows marked : List Nat}
    (hr : Table.Restamps t t' marked (RowStamps.withDeleted x.id))
    (hw : ∀ r ∈ marked, r ∈ committedRows rows ∧ t.Writable t.columns r x.snapshot)
    (hs : ∀ r ∈ committedRows rows, r ∉ marked → t.SeenDeleted r x.snapshot) :
    x.Tells t' (qs ++ [.delete rows]) := by
  intro r v hv
  have hv' : t.GoneBy r x.start → v = none := by
    rintro ⟨st, hst, hd⟩
    refine hv ⟨st, ?_, hd⟩
    rw [hr.stamps_eq, if_neg, hst]
    intro hm
    obtain ⟨st', hst', -, hd'⟩ := (hw r hm).2.stamps
    obtain rfl := Option.some.inj (hst.symm.trans hst')
    exact absurd (hd' ▸ hd) (Nat.not_le_of_lt hstart)
  have hold := h r v hv'
  rw [Request.onRow_snoc]
  by_cases hm : r ∈ marked
  · obtain ⟨hmem, hwrite⟩ := hw r hm
    obtain ⟨hrow, hlocal⟩ := List.mem_filter.mp hmem
    obtain ⟨st, hst, -, -⟩ := hwrite.stamps
    rw [if_neg (by simpa using hlocal), Request.makes, if_pos hrow, onRow, hr.stamps_eq, if_pos hm,
      hst, if_pos (by simp)]
  · have hsame : x.onRow t' r v = x.onRow t r v :=
      onRow_of_same (by rw [hr.stamps_eq, if_neg hm]) (fun i => hr.chain_eq i r) v
    rw [hsame]
    split
    · rename_i hlocal
      rw [← hold, Request.onRow, if_pos hlocal]
    · rename_i hlocal
      rw [hold, Request.makes]
      split
      · rename_i hrow
        exact (onRow_of_seenDeleted (hs r (List.mem_filter.mpr ⟨hrow, by simpa using hlocal⟩) hm)
          hv').symm
      · rfl

/-- **An update tells which rows the transaction has written over.** -/
theorem Tells.update (h : x.Tells t qs) {source : Source} {column : Nat} {rows : List Nat}
    {values : ValueVector} {xs : List Scalar} (hxs : values.firstValues? rows.length = some xs)
    {targets : List (Nat × Scalar)} {before : List Scalar}
    (hu : Table.Updates t t' source column x.snapshot
      ((rows.zip xs).filter (!isLocalRow ·.1)) targets before) :
    x.Tells t' (qs ++ [.update column rows values]) := by
  intro r v hv
  have hv' : t.GoneBy r x.start → v = none := by
    rintro ⟨st, hst, hd⟩
    exact hv ⟨st, by rw [hu.writes.stamps_eq, hst], hd⟩
  have hold := h r v hv'
  obtain ⟨keep, htargets, hskipped⟩ := hu.targets_eq
  have hwritten : Request.written? rows values r = (valuesFor r (rows.zip xs)).getLast? := by
    rw [Request.written?, hxs, Option.getD_some]
  have hstamps := hu.writes.stamps_eq r
  -- Nothing was written to the row, or all that the request says.
  by_cases hnone : valuesFor r targets = []
  · have hsame : x.onRow t' r v = x.onRow t r v := by
      refine onRow_of_same hstamps (fun j => ?_) v
      rw [hu.writes.chain_eq]
      split
      · rw [hnone, versionsOf_nil, List.append_nil]
      · rfl
    rw [Request.onRow_snoc, hsame]
    split
    · rename_i hlocal
      rw [← hold, Request.onRow, if_pos hlocal]
    · rename_i hlocal
      rw [hold, Request.makes, hwritten]
      cases hlast : (valuesFor r (rows.zip xs)).getLast? with
      | none =>
        have hid (row : Row) : (row.modify column fun y => (none : Option Scalar).getD y) = row :=
          List.modify_id column row
        simp only [hid, Option.map_id']
      | some y =>
        have hpair : (r, y) ∈ (rows.zip xs).filter (!isLocalRow ·.1) :=
          List.mem_filter.mpr ⟨mem_valuesFor.mp (List.mem_of_getLast? hlast), by simpa using hlocal⟩
        have hkeep : keep r = false := by
          rw [Bool.eq_false_iff]
          intro hk
          have hmem : (r, y) ∈ targets := htargets ▸ List.mem_filter.mpr ⟨hpair, hk⟩
          rw [valuesFor_eq_nil] at hnone
          exact hnone (List.mem_map_of_mem hmem)
        rw [onRow_of_seenDeleted (hskipped _ hpair hkeep) hv']
        rfl
  · obtain ⟨y, hy⟩ := List.exists_mem_of_ne_nil _ hnone
    have hmem := mem_valuesFor.mp hy
    rw [htargets] at hmem
    obtain ⟨hpair, hk⟩ := List.mem_filter.mp hmem
    have hlocal : isLocalRow r = false := by simpa using (List.mem_filter.mp hpair).2
    have hall : valuesFor r targets = valuesFor r (rows.zip xs) := by
      rw [htargets, Session.valuesFor_filter hk]
      exact @Session.valuesFor_filter (fun r => !isLocalRow r) r (by simp [hlocal]) _
    rw [Request.onRow_snoc, if_neg (by simp [hlocal]), hold, Request.makes, hwritten, ← hall, onRow,
      onRow, hstamps]
    split
    · rfl
    · rw [Option.map_map]
      refine congrArg (Option.map · v) (funext fun row => ?_)
      refine List.ext_getElem (by simp) fun i hi hi' => ?_
      simp only [Function.comp_apply, List.getElem_modify, List.getElem_mapIdx,
        hu.writes.chain_eq]
      by_cases hi : column = i
      · subst hi
        have hnewest : newestOf x.id
            (t.chain column r ++ versionsOf x.snapshot.transaction (valuesFor r targets)) =
            (valuesFor r targets).getLast?.or (newestOf x.id (t.chain column r)) :=
          newestOf_append_versionsOf x.id _ _
        rw [if_pos rfl, if_pos rfl, hnewest]
        exact Option.getD_or.symm
      · rw [if_neg hi, if_neg (Ne.symm hi)]

end Transaction
/-! ## Rows of the transaction -/

/-- A chunk with as many slots as rows: a selection, when there is one, lists them all. -/
def Chunk.Whole (c : Chunk) : Prop := c.slots.length = c.cardinality

namespace LocalRows

variable {l l' : LocalRows} {types : List ColumnType}

theorem getElem?_contents (l : LocalRows) (i : Nat) :
    l.contents[i]? = if i < l.count then some (if l.isDeleted i then none else l.row? i) else none := by
  rw [contents, List.getElem?_map]
  split
  · rename_i hi
    rw [List.getElem?_range hi, Option.map_some]
  · rename_i hi
    rw [List.getElem?_eq_none (by rw [List.length_range]; exact Nat.not_lt.mp hi), Option.map_none]

@[simp] theorem length_contents (l : LocalRows) : l.contents.length = l.count := by
  rw [contents, List.length_map, List.length_range]

/-- **Rows that are added** come behind the others. -/
theorem Keeps.contents_append (h : Keeps l l' types) (hl : l.Sound types) (ht : l.Tidy)
    {rows : List (Option Row)} (hc : l'.count = l.count + rows.length)
    (hnew : ∀ k v, rows[k]? = some v → l'.row? (l.count + k) = v) :
    l'.contents = l.contents ++ rows := by
  refine List.ext_getElem (by simp [hc]) fun i hi hi' => ?_
  rw [← Option.some_inj, ← List.getElem?_eq_getElem, ← List.getElem?_eq_getElem, getElem?_contents,
    if_pos (by simpa using hi)]
  rcases Nat.lt_or_ge i l.count with hlt | hge
  · rw [List.getElem?_append_left (by simpa using hlt), getElem?_contents, if_pos hlt, isDeleted,
      isDeleted, h.deleted_eq, row?_congr
        (h.sound.columns.length_eq.trans hl.columns.length_eq.symm) fun j => h.get?_eq j i hlt]
  · obtain ⟨k, rfl⟩ := Nat.exists_eq_add_of_le hge
    have hnot : l'.isDeleted (l.count + k) = false := by
      rw [isDeleted, h.deleted_eq, Bool.eq_false_iff]
      exact fun hd => absurd (ht _ hd) (Nat.not_lt.mpr hge)
    have hk : k < rows.length := by
      rw [length_contents, hc] at hi
      omega
    rw [List.getElem?_append_right (by simp), length_contents, Nat.add_sub_cancel_left, hnot,
      List.getElem?_eq_getElem hk, hnew k _ (List.getElem?_eq_getElem hk)]
    rfl

/-- Contents of as many rows that agree row by row. -/
theorem contents_eq_mapIdx (hc : l'.count = l.count) {f : Nat → Option Row → Option Row}
    (h : ∀ i, i < l.count → (if l'.isDeleted i then none else l'.row? i) =
      f i (if l.isDeleted i then none else l.row? i)) :
    l'.contents = l.contents.mapIdx f := by
  refine List.ext_getElem? fun i => ?_
  rw [List.getElem?_mapIdx, getElem?_contents, getElem?_contents, hc]
  split
  · rename_i hi
    rw [Option.map_some, h i hi]
  · rfl

end LocalRows

/-- **The rows of a chunk** are found in the columns that they were copied to. -/
theorem LocalRows.row?_added {types : List ColumnType} {c : Chunk} {l l' : LocalRows}
    (hl' : l'.Sound types) (hlen : c.columns.length = types.length)
    (hadded : ∀ (j : Nat) (source : ValueVector), c.columns[j]? = some source →
      ∃ values, source.Lists c.slots values ∧ ∀ k x, values[k]? = some x →
        l'.get? j (l.count + k) = some x) {k slot : Nat} (hk : c.slots[k]? = some slot) :
    l'.row? (l.count + k) = c.atSlot? slot := by
  refine mapM_slot_congr (hl'.columns.length_eq.trans hlen.symm) fun j => ?_
  cases hj : c.columns[j]? with
  | none =>
    have hle := List.getElem?_eq_none_iff.mp hj
    rw [List.getElem?_eq_none (by rw [hl'.columns.length_eq, ← hlen]; exact hle)]
    rfl
  | some source =>
    obtain ⟨values, hlists, hget⟩ := hadded j source hj
    have hval : (values[k]?).map some = some (source.get? slot) := by
      rw [← List.getElem?_map, ← hlists, List.getElem?_map, hk, Option.map_some]
    obtain ⟨x, hx, hsource⟩ := Option.map_eq_some_iff.mp hval
    exact (hget k x hx).trans hsource

namespace Session

variable {s s' : Session} {others : List Transaction} {table : TableId} {t t' : Table}

/-- The rows of the transaction after an insertion. -/
theorem Inserts.own {c : Chunk} (h : Inserts s s' table t c)
    (hs : s.database.Sound (s.transaction :: others))
    (ht : s.database.catalog.tables[table]? = some t) (hc : c.Whole) (htidy : s.transaction.Tidy) :
    s'.transaction.ownRows table = s.transaction.ownRows table ++ c.slots.map c.atSlot? ∧
      ∀ l', s'.transaction.locals.get? table = some l' → l'.Tidy := by
  obtain ⟨l', hl', hk, hcount, hlen, hadded⟩ := h.added
  have hold := locals_ok hs ht
  have hts := (hs.catalog.tables table t ht).1
  -- No rows are as good as a list of none.
  obtain ⟨l, hl, hls, hltidy, hown⟩ : ∃ l, (s.locals? table).getD (.new t.types) = l ∧
      l.Sound t.types ∧ l.Tidy ∧ s.transaction.ownRows table = l.contents := by
    cases hl : s.locals? table with
    | none =>
      refine ⟨_, rfl, LocalRows.sound_new fun type hm => Table.plain_of_sound hts hm,
        fun i hi => (by cases hi), ?_⟩
      rw [Transaction.ownRows, show s.transaction.locals.get? table = none from hl]
      rfl
    | some l =>
      rw [hl] at hold
      refine ⟨l, rfl, hold.1, htidy table l hl, ?_⟩
      rw [Transaction.ownRows, show s.transaction.locals.get? table = some l from hl]
      rfl
  rw [hl] at hk hcount hadded
  have hcontents : l'.contents = l.contents ++ c.slots.map c.atSlot? :=
    hk.contents_append hls hltidy (by rw [hcount, List.length_map, hc]) fun k v hv => by
      obtain ⟨slot, hslot, rfl⟩ := Option.map_eq_some_iff.mp ((List.getElem?_map ..).symm.trans hv)
      exact LocalRows.row?_added hk.sound hlen hadded hslot
  refine ⟨?_, fun l'' hl'' => ?_⟩
  · rw [Transaction.ownRows, show s'.transaction.locals.get? table = some l' from hl', hown]
    exact hcontents
  · obtain rfl := Option.some.inj (hl''.symm.trans hl')
    intro i hi
    rw [LocalRows.isDeleted, hk.deleted_eq] at hi
    exact Nat.lt_of_lt_of_le (hltidy i hi) (hcount ▸ Nat.le_add_right _ _)

/-- The rows of the transaction after a deletion. -/
theorem Deletes.own {rows marked : List Nat} (h : Deletes s s' table t t' rows marked)
    (htidy : s.transaction.Tidy) :
    s'.transaction.ownRows table =
        (s.transaction.ownRows table).mapIdx
          (fun j v => Request.makes (firstLocalRow + j) v (.delete rows)) ∧
      ∀ l', s'.transaction.locals.get? table = some l' → l'.Tidy := by
  cases hl : s.locals? table with
  | none =>
    obtain ⟨hl', -⟩ := h.none_eq hl
    rw [Transaction.ownRows, Transaction.ownRows,
      show s.transaction.locals.get? table = none from hl,
      show s'.transaction.locals.get? table = none from hl']
    exact ⟨rfl, by simp⟩
  | some l =>
    obtain ⟨hrows, l', hl', hcolumns, hcount, hdeleted⟩ := h.some_eq l hl
    have hmem (i : Nat) : ((rows.filter isLocalRow).any (· - firstLocalRow == i)) = true ↔
        firstLocalRow + i ∈ rows := by
      rw [List.any_eq_true]
      constructor
      · rintro ⟨row, hrow, heq⟩
        obtain ⟨hrow, hlocal⟩ := List.mem_filter.mp hrow
        obtain rfl := (eq_localRow_iff hlocal i).mpr (beq_iff_eq.mp heq).symm
        exact hrow
      · intro hi
        exact ⟨_, List.mem_filter.mpr ⟨hi, isLocalRow_add i⟩,
          by rw [Nat.add_sub_cancel_left, beq_self_eq_true]⟩
    refine ⟨?_, fun l'' hl'' i hi => ?_⟩
    · rw [Transaction.ownRows, Transaction.ownRows,
        show s.transaction.locals.get? table = some l from hl,
        show s'.transaction.locals.get? table = some l' from hl']
      refine LocalRows.contents_eq_mapIdx hcount fun i _ => ?_
      have hrow : l'.row? i = l.row? i := by rw [LocalRows.row?, LocalRows.row?, hcolumns]
      rw [hdeleted, hrow, Request.makes]
      by_cases hd : l.isDeleted i = true
      · simp [hd]
      · by_cases hi : firstLocalRow + i ∈ rows
        · rw [(hmem i).mpr hi, if_pos hi, Bool.or_true, if_pos rfl]
        · rw [Bool.eq_false_iff.mpr (mt (hmem i).mp hi), if_neg hi, Bool.or_false]
    · obtain rfl := Option.some.inj (hl''.symm.trans hl')
      rw [hdeleted, Bool.or_eq_true, hmem] at hi
      rw [hcount]
      rcases hi with hi | hi
      · exact htidy table l hl i hi
      · have := hrows _ hi (isLocalRow_add i)
        rwa [Nat.add_sub_cancel_left] at this

/-- The rows of the transaction after an update. -/
theorem Overwrites.own {column : Nat} {rows : List Nat} {values : ValueVector} {xs : List Scalar}
    (hxs : values.firstValues? rows.length = some xs) {targets : List (Nat × Scalar)}
    {before : List Scalar} (h : Overwrites s s' table t t' column (rows.zip xs) targets before)
    (hs : s.database.Sound (s.transaction :: others))
    (ht : s.database.catalog.tables[table]? = some t)
    (hs' : s'.database.Sound (s'.transaction :: others)) (htidy : s.transaction.Tidy) :
    s'.transaction.ownRows table =
        (s.transaction.ownRows table).mapIdx
          (fun j v => Request.makes (firstLocalRow + j) v (.update column rows values)) ∧
      ∀ l', s'.transaction.locals.get? table = some l' → l'.Tidy := by
  cases hl : s.locals? table with
  | none =>
    obtain ⟨hl', -⟩ := h.none_eq hl
    rw [Transaction.ownRows, Transaction.ownRows,
      show s.transaction.locals.get? table = none from hl,
      show s'.transaction.locals.get? table = none from hl']
    exact ⟨rfl, by simp⟩
  | some l =>
    obtain ⟨-, l', hl', hcount, hdeleted, hget⟩ := h.some_eq l hl
    have hls := locals_ok hs ht
    rw [hl] at hls
    have ht' : s'.database.catalog.tables[table]? = some t' := by
      obtain ⟨decoded, hdb⟩ := h.database_eq
      rw [hdb]
      exact (Catalog.tables_setTable ht t' table).trans (if_pos rfl)
    have hls' := locals_ok hs' ht'
    rw [hl'] at hls'
    have htypes : t'.types = t.types := by
      rw [Table.types, Table.types, h.updates.writes.keeps.definitions_eq]
    rw [htypes] at hls'
    have hwritten (r : Nat) :
        Request.written? rows values r = (valuesFor r (rows.zip xs)).getLast? := by
      rw [Request.written?, hxs, Option.getD_some]
    refine ⟨?_, fun l'' hl'' i hi => ?_⟩
    · rw [Transaction.ownRows, Transaction.ownRows,
        show s.transaction.locals.get? table = some l from hl,
        show s'.transaction.locals.get? table = some l' from hl']
      refine LocalRows.contents_eq_mapIdx hcount fun i hi => ?_
      rw [show l'.isDeleted i = l.isDeleted i by rw [LocalRows.isDeleted, hdeleted]; rfl]
      by_cases hd : l.isDeleted i = true
      · rw [if_pos hd, if_pos hd]
        rfl
      · obtain ⟨row, hrow, hfits, hvalues⟩ := hls.1.row? hi
        obtain ⟨row', hrow', hfits', hvalues'⟩ := hls'.1.row? (hcount ▸ hi)
        rw [if_neg hd, if_neg hd, hrow, hrow', Request.makes, Option.map_some, hwritten]
        refine congrArg some (List.ext_getElem (by simp [hfits.length_eq, hfits'.length_eq])
          fun j hj hj' => ?_)
        have hj'' : j < row.length := by simpa using hj'
        have hold := hvalues j _ (List.getElem?_eq_getElem hj'')
        have hnew := hvalues' j _ (List.getElem?_eq_getElem hj)
        rw [hget j i hi, hold] at hnew
        rw [List.getElem_modify]
        by_cases hcolumn : j = column
        · rw [if_pos ⟨hcolumn, Bool.eq_false_iff.mpr hd⟩] at hnew
          rw [if_pos hcolumn.symm]
          rw [← Option.getD_some (a := row'[j]) (b := row[j]), ← hnew, Option.getD_or]
          rfl
        · rw [if_neg fun hboth => hcolumn hboth.1] at hnew
          rw [if_neg (Ne.symm hcolumn)]
          exact (Option.some.inj hnew).symm
    · obtain rfl := Option.some.inj (hl''.symm.trans hl')
      rw [LocalRows.isDeleted, hdeleted] at hi
      exact hcount ▸ htidy table l hl i hi

/-! ## Operations -/

/-- **What an operation does to the rows of the transaction** is what its request says. -/
theorem Acts.own {o : Option (TableId × Request)} (h : Acts s s' o)
    (hs : s.database.Sound (s.transaction :: others))
    (hs' : s'.database.Sound (s'.transaction :: others))
    (hactive : s'.transaction.state = .active)
    (hwhole : ∀ id c, o = some (id, .insert c) → c.Whole) (htidy : s.transaction.Tidy) :
    s'.transaction.Tidy ∧ ∀ id, s'.transaction.ownRows id =
      (({ own := s.transaction.ownRows id } : Contents).after (Request.about id o)).own := by
  -- A request for one table leaves the rows that are meant for others.
  have hone : ∀ {table : TableId} {q : Request}, o = some (table, q) →
      (∀ j, j ≠ table → s'.locals? j = s.locals? j) →
      s'.transaction.ownRows table =
          (s.transaction.ownRows table).mapIdx (fun j v => q.makes (firstLocalRow + j) v) ++ q.added ∧
        (∀ l', s'.transaction.locals.get? table = some l' → l'.Tidy) →
      s'.transaction.Tidy ∧ ∀ id, s'.transaction.ownRows id =
        (({ own := s.transaction.ownRows id } : Contents).after (Request.about id o)).own := by
    rintro table q rfl hothers ⟨hown, hl⟩
    refine ⟨fun id l hid => ?_, fun id => ?_⟩
    · by_cases heq : id = table
      · subst heq
        exact hl l hid
      · exact htidy id l ((hothers id heq).symm.trans hid)
    · rw [Request.about]
      by_cases heq : id = table
      · subst heq
        rw [if_pos rfl, hown]
        rfl
      · rw [if_neg (Ne.symm heq), Transaction.ownRows,
          show s'.transaction.locals.get? id = s.transaction.locals.get? id from hothers id heq]
        rfl
  have hplain (rows : List (Option Row)) : rows = rows.mapIdx fun _ v => v := by
    refine List.ext_getElem? fun i => ?_
    rw [List.getElem?_mapIdx, Option.map_id']
  cases h with
  | idles h => exact ⟨h.tidy htidy, h.own_eq⟩
  | nothing hw hc h =>
    subst h
    refine hone rfl (fun _ _ => rfl) ⟨?_, fun l hl => htidy _ l hl⟩
    have hslots := hwhole _ _ rfl
    rw [Chunk.Whole, hc] at hslots
    rw [Request.added, List.length_eq_zero_iff.mp hslots, List.map_nil, List.append_nil]
    exact hplain _
  | inserts hw ht h =>
    obtain ⟨hown, hl⟩ := h.own hs ht (hwhole _ _ rfl) htidy
    refine hone rfl h.others_eq ⟨?_, hl⟩
    rw [hown]
    exact congrArg (· ++ _) (hplain _)
  | deletes hw ht h =>
    obtain ⟨hown, hl⟩ := h.own htidy
    exact hone rfl h.others_eq ⟨hown.trans (List.append_nil _).symm, hl⟩
  | overwrites hw ht hxs h =>
    obtain ⟨hown, hl⟩ := h.own hxs hs ht hs' htidy
    exact hone rfl h.others_eq ⟨hown.trans (List.append_nil _).symm, hl⟩
  | closes hw hundo h =>
    rw [h] at hactive
    cases hactive
  | erases _ h =>
    rw [h.transaction_eq] at hactive
    cases hactive

/-- **What an operation does to the rows of a table** is what its request says. -/
theorem Acts.tells {o : Option (TableId × Request)} (h : Acts s s' o)
    (hactive : s'.transaction.state = .active) (hstart : s.transaction.start < neverDeleted)
    {id : Nat} (ht : s.database.catalog.tables[id]? = some t)
    (ht' : s'.database.catalog.tables[id]? = some t') {qs : List Request}
    (hqs : s.transaction.Tells t qs) :
    s'.transaction.Tells t' (qs ++ Request.about id o) := by
  cases h with
  | idles h =>
    obtain ⟨decoded, hdb⟩ := h.database_eq
    rw [hdb] at ht'
    obtain rfl := Option.some.inj (ht.symm.trans ht')
    rw [Request.about, List.append_nil]
    exact hqs.congr (by rw [h.transaction_eq]) (by rw [h.transaction_eq])
  | nothing hw hc h =>
    subst h
    obtain rfl := Option.some.inj (ht.symm.trans ht')
    exact hqs.insert id _ _
  | @inserts table _ c hw htable h =>
    rw [h.database_eq] at ht'
    obtain rfl := Option.some.inj (ht.symm.trans ht')
    exact (hqs.insert id _ _).congr (by rw [h.transaction_eq]) (by rw [h.transaction_eq])
  | @deletes table u u' rows marked hw htable h =>
    have hid : s'.transaction.id = s.transaction.id := by rw [h.transaction_eq]
    have hbegun : s'.transaction.start = s.transaction.start := by rw [h.transaction_eq]
    rw [h.database_eq] at ht'
    rw [Catalog.tables_setTable htable] at ht'
    rw [Request.about]
    by_cases heq : table = id
    · subst heq
      rw [if_pos rfl] at ht' ⊢
      obtain rfl := Option.some.inj (ht.symm.trans htable)
      obtain rfl := Option.some.inj ht'
      exact (hqs.delete hstart h.restamps h.writable h.skipped).congr hid hbegun
    · rw [if_neg (Ne.symm heq)] at ht'
      obtain rfl := Option.some.inj (ht.symm.trans ht')
      rw [if_neg heq, List.append_nil]
      exact hqs.congr hid hbegun
  | @overwrites table u u' column rows values xs targets before hw htable hxs h =>
    have hid : s'.transaction.id = s.transaction.id := by rw [h.transaction_eq]
    have hbegun : s'.transaction.start = s.transaction.start := by rw [h.transaction_eq]
    obtain ⟨decoded, hdb⟩ := h.database_eq
    rw [hdb] at ht'
    have ht'' : (s.database.catalog.setTable table u').tables[id]? = some t' := ht'
    rw [Catalog.tables_setTable htable] at ht''
    rw [Request.about]
    by_cases heq : table = id
    · subst heq
      rw [if_pos rfl] at ht'' ⊢
      obtain rfl := Option.some.inj (ht.symm.trans htable)
      obtain rfl := Option.some.inj ht''
      exact (hqs.update hxs h.updates).congr hid hbegun
    · rw [if_neg (Ne.symm heq)] at ht''
      obtain rfl := Option.some.inj (ht.symm.trans ht'')
      rw [if_neg heq, List.append_nil]
      exact hqs.congr hid hbegun
  | closes hw hundo h =>
    rw [h] at hactive
    cases hactive
  | erases _ h =>
    rw [h.transaction_eq] at hactive
    cases hactive

end Session
end ColumnStore
