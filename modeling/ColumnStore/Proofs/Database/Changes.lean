/-
# Changes by a transaction

When a transaction changes a table and records the change, the table stays owned by those who have
recorded that they write to it: nobody else's records are concerned, and in the rows that it writes
to the transaction was alone.  A snapshot that does not see its number sees no difference (`Quiet`).
-/

import ColumnStore.Proofs.Database.Soundness
import ColumnStore.Proofs.Table.Views

namespace ColumnStore

namespace Transaction

variable {x x' : Transaction} {change : UndoRecord}

theorem deletedRows_snoc (h : x'.undo = x.undo ++ [change]) (table : TableId) :
    x'.deletedRows table = x.deletedRows table ++ change.deletedRows table := by
  simp [deletedRows, h]

theorem images_snoc (h : x'.undo = x.undo ++ [change]) (table : TableId) (i r : Nat) :
    x'.images table i r = x.images table i r ++ valuesFor r (change.imagePairs table i) := by
  simp [images, h]

end Transaction

/-- Two states of a transaction whose records agree about a table. -/
structure SameRecords (x x' : Transaction) (id : TableId) : Prop where
  deleted : ∀ r, r ∈ x'.deletedRows id ↔ r ∈ x.deletedRows id
  images : ∀ i r, x'.images id i r = x.images id i r

theorem SameRecords.refl (x : Transaction) (id : TableId) : SameRecords x x id :=
  ⟨fun _ => Iff.rfl, fun _ _ => rfl⟩

theorem SameRecords.of_undo (x x' : Transaction) (h : x'.undo = x.undo) (id : TableId) :
    SameRecords x x' id :=
  ⟨fun r => by rw [Transaction.deletedRows, h]; rfl,
    fun i r => by rw [Transaction.images, h]; rfl⟩

/-- A change of another table says nothing about a table. -/
theorem SameRecords.snoc {x x' : Transaction} {change : UndoRecord}
    (h : x'.undo = x.undo ++ [change]) {id : TableId} (hid : change.table ≠ id) :
    SameRecords x x' id := by
  refine ⟨fun r => ?_, fun i r => ?_⟩
  · have : change.deletedRows id = [] := by
      cases change <;> first | rfl | exact if_neg hid
    rw [Transaction.deletedRows_snoc h, this, List.append_nil]
  · have : change.imagePairs id i = [] := by
      cases change <;> first | rfl | exact if_neg fun hh => hid hh.1
    rw [Transaction.images_snoc h, this, valuesFor_nil, List.append_nil]

namespace TableOwned

section

variable {last time : Stamp} {source : Source} {safe : StoredValues → Prop} {x x' : Transaction}
  {others active : List Transaction} {id : TableId} {t t' : Table}

/-- What writing to rows leaves as it is. -/
theorem of_keeps {active' : List Transaction} (h : TableOwned last source safe active id t)
    (hk : Table.Keeps t t') (hrows : ∀ r, RowOwned time active' id r (t'.stamps? r))
    (hcells : ∀ i r, CellOwned time active' id i r (t.under source i r) (t'.chain i r))
    (hfits : t'.Fits) : TableOwned time source safe active' id t' where
  rows := hrows
  cells i r := by rw [hk.under_eq]; exact hcells i r
  readable c hc := by
    obtain ⟨i, hi⟩ := List.mem_iff_getElem?.mp hc
    cases ht : t.columns[i]? with
    | none => rw [hk.column_none ht] at hi; cases hi
    | some c₀ =>
      obtain ⟨c', hc', hkc⟩ := hk.column ht
      obtain rfl := Option.some.inj (hi.symm.trans hc')
      exact hkc.readable (h.readable c₀ (List.mem_of_getElem? ht))
  safe v hv := h.safe v (hk.stored_eq ▸ hv)
  fits := hfits

/-- Chains that have no versions but old ones and ones that fit. -/
theorem fits_of_mem (h : TableOwned last source safe active id t) (ht : t'.types = t.types)
    (hv : ∀ i r, ∀ v ∈ t'.chain i r, v ∈ t.chain i r ∨
      ∀ type, t.types[i]? = some type → v.value.fits type = true) : t'.Fits := by
  intro i type htype r v hm
  rw [ht] at htype
  rcases hv i r v hm with hold | hnew
  · exact h.fits i type htype r v hold
  · exact hnew type htype

theorem replace (h : TableOwned last source safe (x :: others) id t) (hid : x'.id = x.id)
    (hstart : x'.start = x.start) (hsame : SameRecords x x' id) :
    TableOwned last source safe (x' :: others) id t where
  rows r := (h.rows r).replace hid (hsame.deleted r)
  cells i r := (h.cells i r).replace hid hstart (hsame.images i r)
  readable := h.readable
  safe := h.safe
  fits := h.fits

theorem insert (h : TableOwned last source safe others id t) (hx : x.undo = []) :
    TableOwned last source safe (x :: others) id t where
  rows r := (h.rows r).insert (by simp [Transaction.deletedRows, hx])
  cells i r := (h.cells i r).insert (by simp [Transaction.images, hx])
  readable := h.readable
  safe := h.safe
  fits := h.fits

theorem release (h : TableOwned last source safe (x :: others) id t) (hx : x.undo = []) :
    TableOwned last source safe others id t where
  rows r := (h.rows r).release (by simp [Transaction.deletedRows, hx])
  cells i r := (h.cells i r).release (by simp [Transaction.images, hx])
  readable := h.readable
  safe := h.safe
  fits := h.fits

theorem mono (h : TableOwned last source safe others id t) (ht : last ≤ time) :
    TableOwned time source safe others id t where
  rows r := (h.rows r).mono ht
  cells i r := (h.cells i r).mono ht
  readable := h.readable
  safe := h.safe
  fits := h.fits

/-- **A transaction marks rows deleted** that nobody has deleted. -/
theorem mark (h : TableOwned last source safe (x :: others) id t)
    (hids : ∀ y ∈ x :: others, y.id < neverDeleted) {rows : List Nat}
    (hr : Table.Restamps t t' rows (RowStamps.withDeleted x.id))
    (hfree : ∀ r ∈ rows, ∃ st, t.stamps? r = some st ∧ st.deleted = neverDeleted)
    (hid : x'.id = x.id) (hstart : x'.start = x.start)
    (hdel : ∀ r, r ∈ x'.deletedRows id ↔ r ∈ x.deletedRows id ∨ r ∈ rows)
    (himg : ∀ i r, x'.images id i r = x.images id i r) :
    TableOwned last source safe (x' :: others) id t' := by
  refine h.of_keeps hr.keeps (fun r => ?_) (fun i r => ?_)
    (h.fits_of_mem hr.keeps.types_eq fun i r v hv => Or.inl (hr.chain_eq i r ▸ hv))
  · rw [hr.stamps_eq r]
    by_cases hm : r ∈ rows
    · obtain ⟨st, hst, hd⟩ := hfree r hm
      rw [if_pos hm, hst]
      exact RowOwned.mark (hst ▸ h.rows r) hd hids hid ((hdel r).mpr (Or.inr hm))
    · rw [if_neg hm]
      exact (h.rows r).replace hid ((hdel r).trans (or_iff_left hm))
  · rw [hr.chain_eq]
    exact (h.cells i r).replace hid hstart (himg i r)

/-- **A transaction takes its deletions of rows back.** -/
theorem unmark (h : TableOwned last source safe (x :: others) id t)
    (ho : ∀ y ∈ others, y.id ≠ x.id) {rows : List Nat}
    (hr : Table.Restamps t t' rows (RowStamps.withDeleted neverDeleted))
    (hid : x'.id = x.id) (hstart : x'.start = x.start)
    (hmine : ∀ r ∈ rows, r ∈ x.deletedRows id)
    (hdel : ∀ r, r ∈ x'.deletedRows id ↔ r ∈ x.deletedRows id ∧ r ∉ rows)
    (himg : ∀ i r, x'.images id i r = x.images id i r) :
    TableOwned last source safe (x' :: others) id t' := by
  refine h.of_keeps hr.keeps (fun r => ?_) (fun i r => ?_)
    (h.fits_of_mem hr.keeps.types_eq fun i r v hv => Or.inl (hr.chain_eq i r ▸ hv))
  · rw [hr.stamps_eq r]
    by_cases hm : r ∈ rows
    · rw [if_pos hm]
      have hrow := h.rows r
      cases hst : t.stamps? r with
      | none =>
        rw [hst] at hrow
        exact absurd (hmine r hm) (hrow x List.mem_cons_self)
      | some st =>
        rw [hst] at hrow
        exact hrow.unmark ho (hmine r hm) fun hx' => ((hdel r).mp hx').2 hm
    · rw [if_neg hm]
      exact (h.rows r).replace hid ((hdel r).trans (and_iff_left hm))
  · rw [hr.chain_eq]
    exact (h.cells i r).replace hid hstart (himg i r)

/-- **A transaction writes to rows of a column** in which it has seen the newest version. -/
theorem write (h : TableOwned last source safe (x :: others) id t) (hts : t.Sound)
    (ho : ∀ y ∈ others, y.id ≠ x.id) (hids : ∀ y ∈ x :: others, last < y.id)
    (hstart : x.start ≤ last) {column : Nat} {rows targets : List (Nat × Scalar)}
    {before : List Scalar}
    (hu : Table.Updates t t' source column x.snapshot rows targets before)
    (hvalue : ∀ p ∈ targets, ∃ y, t.value source column p.1 x.snapshot = .ok y)
    (hid : x'.id = x.id) (hstart' : x'.start = x.start)
    (hdel : ∀ r, r ∈ x'.deletedRows id ↔ r ∈ x.deletedRows id)
    (himg : ∀ i r, x'.images id i r = x.images id i r ++
      if i = column then valuesFor r ((targets.map (·.1)).zip before) else []) :
    TableOwned last source safe (x' :: others) id t' := by
  refine h.of_keeps hu.writes.keeps (fun r => ?_) (fun i r => ?_)
    (h.fits_of_mem hu.writes.keeps.types_eq fun i r v hv => ?_)
  · rw [hu.writes.stamps_eq]
    exact (h.rows r).replace hid (hdel r)
  · rw [hu.writes.chain_eq]
    have himage := himg i r
    by_cases hi : i = column
    · subst hi
      rw [if_pos rfl] at himage ⊢
      by_cases hmore : valuesFor r targets = []
      · rw [hmore, versionsOf_nil, List.append_nil]
        refine (h.cells i r).replace hid hstart' (himage.trans ?_)
        rw [valuesFor_eq_nil.mpr, List.append_nil]
        rw [map_fst_zip (by simpa using hu.length_before)]
        exact valuesFor_eq_nil.mp hmore
      · obtain ⟨p, hp, rfl⟩ := List.mem_map.mp (not_not.mp (mt valuesFor_eq_nil.mpr hmore))
        obtain ⟨y, hy⟩ := hvalue p hp
        obtain ⟨c, hc, hw⟩ := hu.column
        refine (h.cells i p.1).write ho hids hstart hmore (fun v hv => ?_) hy hid hstart' ?_
        · exact (hw p hp).1.newest c (List.mem_singleton_self c) v (Table.chain_of_some hc p.1 ▸ hv)
        · rw [himage, hu.images p.1 y hy]
    · rw [if_neg hi] at himage ⊢
      exact (h.cells i r).replace hid hstart' (himage.trans (List.append_nil _))
  · rw [hu.writes.chain_eq] at hv
    split at hv
    · rename_i hi
      refine (List.mem_append.mp hv).imp_right fun hv type htype => ?_
      obtain ⟨y, hy, rfl⟩ := List.mem_map.mp hv
      obtain ⟨c, hc, hw⟩ := hu.column
      obtain ⟨d, hd, hdtype, hh⟩ := Table.holds_of_some hts hc
      rw [hi] at htype
      obtain rfl := Option.some.inj (htype.symm.trans hdtype)
      exact (hw _ (mem_valuesFor.mp hy)).2
    · exact Or.inl hv

/-- **A transaction takes its newest write to a row back.** -/
theorem unwrite (h : TableOwned last source safe (x :: others) id t) (x' : Transaction)
    (column row : Nat) (before : Scalar) (ho : ∀ y ∈ others, y.id ≠ x.id)
    (hid : x'.id = x.id) (hstart : x'.start = x.start)
    (hdel : ∀ r, r ∈ x'.deletedRows id ↔ r ∈ x.deletedRows id)
    (himg : ∀ i r, x.images id i r =
      x'.images id i r ++ if i = column ∧ r = row then [before] else []) :
    ∃ front y, t.chain column row = front ++ [⟨x.id, y⟩] ∧
      readOver (t.under source column row) front x.snapshot = .ok before ∧
      ∀ t', Table.Rechains t t' column [row] (fun _ => front) →
        TableOwned last source safe (x' :: others) id t' := by
  have hrow := himg column row
  rw [if_pos ⟨rfl, rfl⟩] at hrow
  obtain ⟨front, y, hchain, hread, howned⟩ :=
    (h.cells column row).unwrite ho hrow hid hstart rfl
  refine ⟨front, y, hchain, hread, fun t' ht' => h.of_keeps ht'.keeps (fun r => ?_) (fun i r => ?_)
    (h.fits_of_mem ht'.keeps.types_eq fun i r v hv => Or.inl ?_)⟩
  · rw [ht'.stamps_eq]
    exact (h.rows r).replace hid (hdel r)
  · rw [ht'.chain_eq]
    by_cases hm : i = column ∧ r = row
    · obtain ⟨rfl, rfl⟩ := hm
      rw [if_pos ⟨rfl, List.mem_singleton_self r⟩]
      exact howned
    · rw [if_neg (by simpa using hm)]
      have himage := himg i r
      rw [if_neg hm, List.append_nil] at himage
      exact (h.cells i r).replace hid hstart himage.symm
  · rw [ht'.chain_eq] at hv
    split at hv
    · rename_i hm
      obtain ⟨rfl, hr⟩ := hm
      obtain rfl := List.mem_singleton.mp hr
      rw [hchain]
      exact List.mem_append_left _ hv
    · exact hv

end

end TableOwned

namespace Database

/-- Other tables do not depend on a change of one. -/
theorem Sound.change {db : Database} {x : Transaction} {others : List Transaction}
    (h : db.Sound (x :: others)) (x' : Transaction) {id : TableId} {t t' : Table}
    (ht : db.catalog.tables[id]? = some t) (hk : Table.Keeps t t') (hid : x'.id = x.id)
    (hstart : x'.start = x.start) (hrec : x'.Recorded db.catalog.types?)
    (hown : TableOwned db.lastCommit db.disk.source db.SafeFile (x' :: others) id t')
    (hother : ∀ j, j ≠ id → SameRecords x x' j) :
    Sound { db with catalog := db.catalog.setTable id t' } (x' :: others) where
  catalog := h.catalog.setTable ht (hk.sound (h.catalog.tables id t ht).1) hk.name_eq
    hk.definitions_eq hk.dropped_eq
  last_lt := h.last_lt
  next_ge := h.next_ge
  next_le := h.next_le
  distinct := by
    have := h.distinct
    rwa [List.map_cons, ← hid, ← List.map_cons] at this
  ids := by
    refine List.forall_mem_cons.mpr ⟨?_, fun y hy => h.ids y (List.mem_cons_of_mem _ hy)⟩
    rw [hid, hstart]
    exact h.ids x List.mem_cons_self
  listed i := by
    have := h.listed i
    rwa [List.map_cons, ← hid, ← List.map_cons] at this
  recorded := by
    rw [Catalog.types?_setTable ht hk.definitions_eq]
    exact List.forall_mem_cons.mpr
      ⟨hrec, fun y hy => h.recorded y (List.mem_cons_of_mem _ hy)⟩
  owned j u hu := by
    rw [Catalog.tables_setTable ht] at hu
    split at hu
    · rename_i hj
      obtain rfl := Option.some.inj hu
      exact hj ▸ hown
    · rename_i hj
      exact (h.owned j u hu).replace hid hstart (hother j hj)
  kept := h.kept

/-- A transaction with other records of the same changes. -/
theorem Sound.replace {db : Database} {x x' : Transaction} {others : List Transaction}
    (h : db.Sound (x :: others)) (hid : x'.id = x.id) (hstart : x'.start = x.start)
    (hrec : x'.Recorded db.catalog.types?) (hsame : ∀ j, SameRecords x x' j) :
    db.Sound (x' :: others) where
  catalog := h.catalog
  last_lt := h.last_lt
  next_ge := h.next_ge
  next_le := h.next_le
  distinct := by
    have := h.distinct
    rwa [List.map_cons, ← hid, ← List.map_cons] at this
  ids := by
    refine List.forall_mem_cons.mpr ⟨?_, fun y hy => h.ids y (List.mem_cons_of_mem _ hy)⟩
    rw [hid, hstart]
    exact h.ids x List.mem_cons_self
  listed i := by
    have := h.listed i
    rwa [List.map_cons, ← hid, ← List.map_cons] at this
  recorded := List.forall_mem_cons.mpr
    ⟨hrec, fun y hy => h.recorded y (List.mem_cons_of_mem _ hy)⟩
  owned j u hu := (h.owned j u hu).replace hid hstart (hsame j)
  kept := h.kept

end Database

/-! ## Changes that nobody else sees -/

namespace Database

/-- Two states of a database, the later one after changes by the transaction with a number while it
was active. -/
structure Quiet (id : Stamp) (db db' : Database) : Prop where
  rest_eq : db' = { db with catalog := db'.catalog, decoded := db'.decoded }
  names_eq : db'.catalog.names = db.catalog.names
  size_eq : db'.catalog.tables.size = db.catalog.tables.size
  tables : ∀ (i : Nat) (t : Table), db.catalog.tables[i]? = some t →
    ∃ t', db'.catalog.tables[i]? = some t' ∧ Table.Keeps t t' ∧
      ∀ s : Snapshot, s.sees id = false → s.sees neverDeleted = false → Table.Looks s t t'

theorem Quiet.next_eq {id : Stamp} {db db' : Database} (h : Quiet id db db') :
    db'.nextTransaction = db.nextTransaction := by rw [h.rest_eq]

theorem Quiet.trans {id : Stamp} {a b c : Database} (h : Quiet id a b) (h' : Quiet id b c) :
    Quiet id a c where
  rest_eq := by
    rw [h'.rest_eq, h.rest_eq]
  names_eq := h'.names_eq.trans h.names_eq
  size_eq := h'.size_eq.trans h.size_eq
  tables i t ht := by
    obtain ⟨t₁, ht₁, hk, hl⟩ := h.tables i t ht
    obtain ⟨t₂, ht₂, hk', hl'⟩ := h'.tables i t₁ ht₁
    exact ⟨t₂, ht₂, hk.trans hk', fun s hs hn => (hl s hs hn).trans (hl' s hs hn)⟩

variable {db : Database} {active : List Transaction}

theorem Sound.quiet_refl (h : db.Sound active) (id : Stamp) : Quiet id db db where
  rest_eq := rfl
  names_eq := rfl
  size_eq := rfl
  tables i t ht :=
    ⟨t, ht, Table.Keeps.refl (h.catalog.tables i t ht).1, fun s _ _ => Table.Looks.refl s t⟩

theorem Sound.quiet_remember (h : db.Sound active) (id : Stamp) (decoded : Decoded) :
    Quiet id db (db.remember decoded) where
  rest_eq := rfl
  names_eq := rfl
  size_eq := rfl
  tables i t ht :=
    ⟨t, ht, Table.Keeps.refl (h.catalog.tables i t ht).1, fun s _ _ => Table.Looks.refl s t⟩

/-- **A change of one table that nobody else sees.** -/
theorem Sound.quiet_setTable (h : db.Sound active) {id : Stamp} {j : TableId} {t t' : Table}
    (ht : db.catalog.tables[j]? = some t) (hk : Table.Keeps t t')
    (hl : ∀ s : Snapshot, s.sees id = false → s.sees neverDeleted = false → Table.Looks s t t') :
    Quiet id db { db with catalog := db.catalog.setTable j t' } where
  rest_eq := rfl
  names_eq := rfl
  size_eq := Array.size_setIfInBounds
  tables i u hu := by
    rw [Catalog.tables_setTable ht]
    by_cases hi : i = j
    · subst hi
      obtain rfl := Option.some.inj (ht.symm.trans hu)
      exact ⟨t', if_pos rfl, hk, hl⟩
    · exact ⟨u, (if_neg hi).trans hu, Table.Keeps.refl (h.catalog.tables i u hu).1,
        fun s _ _ => Table.Looks.refl s u⟩

theorem change_eq {ε α : Type} {id : TableId} {t : Table}
    (ht : db.catalog.tables[id]? = some t) (f : Table → Attempt ε Table α) :
    db.change id f = ((f t).1, { db with catalog := db.catalog.setTable id (f t).2 }) := by
  rw [change, Catalog.change, Catalog.table_of_some ht]

/-- **A change that reads** is done when the reading succeeds, and what was read is kept. -/
theorem changeReading_eq {α : Type} {id : TableId} {t t' : Table}
    (ht : db.catalog.tables[id]? = some t)
    {f : Source → Table → Reading (Attempt TransactionError Table α)}
    {r : Except TransactionError α} (hf : (f db.source t).result = .ok (r, t')) :
    db.changeReading id f =
      (r, { db.remember (f db.source t).decoded with catalog := db.catalog.setTable id t' }) := by
  have hr : db.read (fun source => f source (db.catalog.table id)) =
      (.ok (r, t'), db.remember (f db.source t).decoded) := by
    rw [read, Catalog.table_of_some ht, hf]
  rw [changeReading, hr]
  have ht' : (db.remember (f db.source t).decoded).catalog.tables[id]? = some t := ht
  exact change_eq ht' fun _ => (r, t')

end Database

end ColumnStore
