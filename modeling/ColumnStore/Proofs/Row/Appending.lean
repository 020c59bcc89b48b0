/-
# Rows are added whole or not at all

What is written to new rows goes behind the rows and the texts that were there (`PackedRows.Keeps`), so
cutting it off again leaves them as they were (`extend_error`).  A row, or the rows of a chunk, are
added when they fit the types and there is room for them, and nothing changes otherwise
(`Records.call`).  So packed rows are the table of the rows that were added (`run_as_table`).
-/

import ColumnStore.Proofs.Row.Legible
import ColumnStore.Proofs.Vector.Nested

namespace ColumnStore
namespace PackedRows

variable {o p q : PackedRows} {l : RowLayout} {i column : Nat} {x : Scalar} {t : ColumnType}
  {values : Row} {table rows : List Row} {c : Chunk}

/-! ## What was there stays -/

/-- Packed rows with more behind the rows and the texts of others. -/
structure Keeps (p q : PackedRows) : Prop where
  layout_eq : q.layout = p.layout
  bytes : ∃ more, q.bytes = p.bytes ++ more
  heap : ∃ more, q.heap = p.heap ++ more

theorem Keeps.refl (p : PackedRows) : p.Keeps p :=
  ⟨rfl, ⟨[], (List.append_nil _).symm⟩, [], (List.append_nil _).symm⟩

theorem Keeps.allocate (p : PackedRows) (n : Nat) : p.Keeps (p.allocate n) :=
  ⟨rfl, ⟨_, rfl⟩, [], (List.append_nil _).symm⟩

/-- **Only rows behind those that were there are written.** -/
theorem Keeps.fill (h : o.Keeps p) (hi : o.bytes.length ≤ p.start i) (column : Nat) (slot : Bytes) :
    o.Keeps (p.fill i column slot).2 := by
  unfold PackedRows.fill
  dsimp only
  split
  · exact h
  · split
    · rename_i offset _ hin
      obtain ⟨more, hbytes⟩ := h.bytes
      obtain ⟨d, hd⟩ := Nat.exists_eq_add_of_le hi
      rw [hbytes, List.length_append] at hin
      refine ⟨h.layout_eq, ?_, h.heap⟩
      dsimp only
      rw [hbytes, hd, Nat.add_assoc, Bytes.append_overwrite _ _ (by omega), RowLayout.append_setValid]
      exact ⟨_, rfl⟩
    · exact h

theorem Keeps.store (h : o.Keeps p) (hi : o.bytes.length ≤ p.start i) (column : Nat) (x : Scalar) :
    o.Keeps (p.store i column x).2 := by
  unfold PackedRows.store
  cases x
  case null => exact h
  case list => exact h
  case varchar s =>
    dsimp only
    split
    · exact h
    · obtain ⟨more, hheap⟩ := h.heap
      have hlonger : o.Keeps { p with heap := p.heap ++ Bytes.ofString s } :=
        ⟨h.layout_eq, h.bytes, more ++ Bytes.ofString s, by rw [hheap, List.append_assoc]⟩
      exact hlonger.fill hi column _
  all_goals exact h.fill hi column _

/-- What two attempts in a row keep. -/
theorem Keeps.andThen {ε α β : Type} {r : Attempt ε PackedRows α} (h : o.Keeps r.2)
    {next : α → PackedRows → Attempt ε PackedRows β} (hnext : ∀ a, o.Keeps (next a r.2).2) :
    o.Keeps (r.andThen next).2 := by
  obtain ⟨_ | a, p⟩ := r
  · exact h
  · exact hnext a

/-- The bytes of a row do not move. -/
theorem Keeps.start_eq (h : o.Keeps p) (i : Nat) : p.start i = o.start i := by
  rw [start, start, h.layout_eq]

theorem Keeps.storeFrom (h : o.Keeps p) (hi : o.bytes.length ≤ o.start i) (column : Nat)
    (rest : Row) : o.Keeps (p.storeFrom i column rest).2 := by
  induction rest generalizing p column with
  | nil => exact h
  | cons x rest ih =>
    rw [PackedRows.storeFrom]
    split
    · exact ih h _
    · split
      · exact h
      · split
        · have hone := h.store (h.start_eq i ▸ hi) column x
          exact hone.andThen fun _ => ih hone _
        · exact h

theorem Keeps.scatter (h : o.Keeps p) {first : Nat} (hfirst : o.bytes.length ≤ o.start first)
    (c : Chunk) (v : ValueVector) (column left k : Nat) :
    o.Keeps (PackedRows.scatter c v first column left k p).2 := by
  induction left generalizing p k with
  | zero => exact h
  | succ left ih =>
    rw [PackedRows.scatter]
    split
    · exact h
    · rename_i x _
      have hi : o.bytes.length ≤ o.start (first + k) :=
        Nat.le_trans hfirst (Nat.mul_le_mul_right _ (Nat.le_add_right _ _))
      have hone := h.store (h.start_eq _ ▸ hi) column x
      exact hone.andThen fun _ => ih hone _

theorem Keeps.scatterFrom (h : o.Keeps p) {first : Nat} (hfirst : o.bytes.length ≤ o.start first)
    (c : Chunk) (column : Nat) (vs : List ValueVector) :
    o.Keeps (PackedRows.scatterFrom c first column vs p).2 := by
  induction vs generalizing p column with
  | nil => exact h
  | cons v vs ih =>
    rw [PackedRows.scatterFrom]
    split
    · exact h
    · have hone := h.scatter hfirst c v column c.cardinality 0
      exact hone.andThen fun _ => ih hone _

/-- **Rows that were there have the same bytes.** -/
theorem Keeps.row?_eq (h : p.Keeps q) (haligned : p.bytes.length = p.size * p.layout.width)
    (hi : i < p.size) : q.row? i = p.row? i := by
  obtain ⟨more, hbytes⟩ := h.bytes
  have hle : p.start i + p.layout.width ≤ p.bytes.length := by
    rw [haligned, start, ← Nat.succ_mul]
    exact Nat.mul_le_mul_right _ hi
  rw [row?, row?, h.start_eq, h.layout_eq, hbytes, Bytes.slice?_append_left hle]

/-- **What was added is cut off again.** -/
theorem Keeps.truncate (h : p.Keeps q) (haligned : p.bytes.length = p.size * p.layout.width) :
    q.truncate p.size p.heap.length = p := by
  obtain ⟨layout, size, bytes, heap⟩ := p
  obtain ⟨hlayout, ⟨more, hbytes⟩, ⟨more', hheap⟩⟩ := h
  rw [PackedRows.truncate, hlayout, hbytes, hheap, ← haligned, List.take_left, List.take_left]

/-- **Rows that cannot be written are taken away again.** -/
theorem extend_error {n : Nat} {write : PackedRows → Attempt MatchError PackedRows Unit}
    (haligned : p.bytes.length = p.size * p.layout.width) (hwrite : p.Keeps (write (p.allocate n)).2)
    {e : MatchError} (h : p.extend n write = (.error e, q)) : q = p := by
  rw [extend] at h
  split at h
  · exact (Prod.mk.inj h).2.symm
  · rcases hw : write (p.allocate n) with ⟨e' | _, p'⟩
    · rw [hw] at h hwrite
      exact (Prod.mk.inj h).2.symm.trans (hwrite.truncate haligned)
    · rw [hw] at h
      cases h

theorem extend_eq_ok {n : Nat} {write : PackedRows → Attempt MatchError PackedRows Unit} :
    p.extend n write = (.ok (), q) ↔ p.hasRoom n = true ∧ write (p.allocate n) = (.ok (), q) := by
  rw [extend]
  cases p.hasRoom n with
  | false => simp
  | true =>
    rw [Bool.not_true, if_neg Bool.false_ne_true]
    rcases write (p.allocate n) with ⟨e | _, p'⟩ <;> simp

/-! ## New rows -/

/-- The bytes of a new row are zero. -/
theorem row?_allocate (haligned : p.bytes.length = p.size * p.layout.width) {n : Nat}
    (hroom : p.size + n < UInt64.size) (hi : p.size ≤ i) (hlt : i < p.size + n) :
    (p.allocate n).row? i = some (emptyRow p.layout) := by
  obtain ⟨d, rfl⟩ := Nat.exists_eq_add_of_le hi
  have hplace : (p.allocate n).start (p.size + d) = p.bytes.length + d * p.layout.width := by
    rw [start, Nat.add_mul, haligned]
    rfl
  have hle : d * p.layout.width + p.layout.width ≤ n * p.layout.width := by
    rw [← Nat.succ_mul]
    exact Nat.mul_le_mul_right _ (by omega)
  have hzeros : (p.allocate n).bytes = p.bytes ++ List.replicate (n * p.layout.width) 0 := by
    rw [allocate, Bytes.padTo, haligned, Nat.add_mul, Nat.add_sub_cancel_left]
  rw [row?, if_pos (by omega), hplace, hzeros, Bytes.slice?_append_right]
  refine (Bytes.slice?_of_le (by rwa [List.length_replicate])).trans ?_
  rw [List.drop_replicate, List.take_replicate,
    Nat.min_eq_left (show (p.allocate n).layout.width ≤ _ from Nat.le_sub_of_add_le' hle)]
  rfl

/-- **New rows hold nothing yet,** and those that were there are as they were. -/
theorem Packs.allocate (h : p.Packs table) (hfits : ∀ values ∈ rows, FitsTypes values p.layout.types)
    (hroom : p.size + rows.length < UInt64.size) :
    (p.allocate rows.length).Holds (table ++ rows) fun i =>
      if i < table.length then p.layout.types.length else 0 where
  plain := h.plain
  size_eq := by
    rw [List.length_append, ← h.size_eq]
    rfl
  size_lt := hroom
  length_eq := by
    rw [PackedRows.allocate, Bytes.padTo, List.length_append, List.length_replicate, h.length_eq]
    exact Nat.add_sub_cancel' (Nat.mul_le_mul_right _ (Nat.le_add_right _ _))
  heap_lt := h.heap_lt
  fits values hvalues := (List.mem_append.mp hvalues).elim (h.fits values) (hfits values)
  filled i values hvalues := by
    rcases Nat.lt_or_ge i table.length with hi | hi
    · rw [List.getElem?_append_left hi] at hvalues
      obtain ⟨row, hrow, hfilled⟩ := h.filled i values hvalues
      rw [if_pos hi]
      exact ⟨row, ((Keeps.allocate p _).row?_eq h.length_eq (h.size_eq ▸ hi)).trans hrow, hfilled⟩
    · rw [List.getElem?_append_right hi] at hvalues
      have hlt := (List.getElem?_eq_some_iff.mp hvalues).1
      rw [if_neg (Nat.not_lt_of_le hi)]
      have hlen := (hfits values (List.mem_of_getElem? hvalues)).length_eq
      exact ⟨_, row?_allocate h.length_eq hroom (h.size_eq ▸ hi) (by have := h.size_eq; omega),
        filled_emptyRow _ hlen _⟩

/-- Rows that can be added to a table: they fit the types, and there is room for them and for their
texts. -/
def Admits (types : List ColumnType) (table rows : List Row) : Prop :=
  (∀ values ∈ rows, FitsTypes values types) ∧ (table ++ rows).length < UInt64.size ∧
    textLength (table ++ rows).flatten < UInt32.size

instance (row : Row) (types : List ColumnType) : Decidable (FitsTypes row types) :=
  inferInstanceAs (Decidable (List.Forall₂ _ row types))

instance (types : List ColumnType) (table rows : List Row) : Decidable (Admits types table rows) :=
  inferInstanceAs (Decidable (_ ∧ _ ∧ _))

/-- Packed rows that hold a table, and no other texts. -/
structure Records (p : PackedRows) (table : List Row) : Prop where
  packs : p.Packs table
  heap_length : p.heap.length = textLength table.flatten

theorem Records.room (h : p.Records table) (hadmits : Admits p.layout.types table rows) :
    p.size + rows.length < UInt64.size ∧
      p.heap.length + textLength rows.flatten < UInt32.size := by
  obtain ⟨-, hrows, htext⟩ := hadmits
  rw [List.length_append, ← h.packs.size_eq] at hrows
  rw [List.flatten_append, textLength_append, ← h.heap_length] at htext
  exact ⟨hrows, htext⟩

/-- **Rows that are written** behind a table make a longer one. -/
theorem Records.extend (h : p.Records table) (hadmits : Admits p.layout.types table rows)
    {write : PackedRows → Attempt MatchError PackedRows Unit}
    (hwrite : write (p.allocate rows.length) = (.ok (), q)) (hlayout : q.layout = p.layout)
    (hheap : q.heap.length = p.heap.length + textLength rows.flatten)
    (hholds : q.Holds (table ++ rows) fun _ => p.layout.types.length) :
    p.extend rows.length write = (.ok (), q) ∧ q.Records (table ++ rows) := by
  refine ⟨extend_eq_ok.mpr ⟨decide_eq_true (h.room hadmits).1, hwrite⟩, ?_, ?_⟩
  · rw [Packs, hlayout]
    exact hholds
  · rw [hheap, h.heap_length, List.flatten_append, textLength_append]

/-- **A row that can be added is added.** -/
theorem Records.appendRow_ok (h : p.Records table) (hadmits : Admits p.layout.types table [values]) :
    ∃ q, p.appendRow values = (.ok p.size, q) ∧ q.layout = p.layout ∧
      q.Records (table ++ [values]) := by
  have hlen := (hadmits.1 values List.mem_cons_self).length_eq
  obtain ⟨hroom, htext⟩ := h.room hadmits
  rw [List.flatten_singleton] at htext
  have hrow : (table ++ [values])[p.size]? = some ([] ++ values) := by
    rw [h.packs.size_eq, List.getElem?_append_right (Nat.le_refl _), Nat.sub_self]
    rfl
  obtain ⟨q, hstore, hlayout, hholds⟩ := (h.packs.allocate hadmits.1 hroom).storeFrom hrow
    (if_neg (by rw [h.packs.size_eq]; exact Nat.lt_irrefl _)) htext
  obtain ⟨-, hheap, -⟩ := fits_of_storeFrom hstore (by
    rw [List.length_nil, Nat.zero_add, hlen]
    exact Nat.le_refl _)
  obtain ⟨hextend, hrecords⟩ := @Records.extend p q table [values] h hadmits
    (·.storeFrom p.size 0 values) hstore hlayout (by rw [hheap, List.flatten_singleton]; rfl)
    (hholds.congr fun j hj => by
      rw [List.length_append, ← h.packs.size_eq, List.length_singleton] at hj
      rw [← h.packs.size_eq]
      split_ifs <;> first | rfl | omega | exact hlen.symm)
  refine ⟨q, ?_, hlayout, hrecords⟩
  rw [PackedRows.appendRow, if_neg (not_not.mpr hlen),
    show p.extend 1 (·.storeFrom p.size 0 values) = (.ok (), q) from hextend]
  rfl

/-- **A row that is added could be.** -/
theorem Records.admits_of_appendRow (h : p.Records table) {n : Nat}
    (hok : p.appendRow values = (.ok n, q)) : Admits p.layout.types table [values] := by
  rw [PackedRows.appendRow] at hok
  split at hok
  · cases hok
  · rename_i hlen
    have hlen := not_not.mp hlen
    obtain ⟨⟨⟩, q', hextend, -⟩ := Attempt.andThen_eq_ok.mp hok
    obtain ⟨hroom, hstore⟩ := extend_eq_ok.mp hextend
    obtain ⟨hfits, hheap, hlt⟩ := fits_of_storeFrom hstore (by
      rw [Nat.zero_add, hlen]
      exact Nat.le_refl _)
    have htake : ((p.allocate 1).layout.types.drop 0).take values.length = p.layout.types := by
      rw [List.drop_zero, hlen]
      exact List.take_length
    rw [htake] at hfits
    refine ⟨List.forall_mem_singleton.mpr hfits, ?_, ?_⟩
    · rw [List.length_append, ← h.packs.size_eq]
      exact of_decide_eq_true hroom
    · rw [List.flatten_append, textLength_append, ← h.heap_length, List.flatten_singleton]
      exact hheap ▸ hlt h.packs.heap_lt

/-- **A row that is refused leaves nothing behind.** -/
theorem appendRow_error (haligned : p.bytes.length = p.size * p.layout.width) {e : MatchError}
    (h : p.appendRow values = (.error e, q)) : q = p := by
  rw [PackedRows.appendRow] at h
  split at h
  · exact (Prod.mk.inj h).2.symm
  · rcases hextend : p.extend 1 (·.storeFrom p.size 0 values) with ⟨e' | ⟨⟩, p'⟩
    · rw [hextend] at h
      obtain rfl := (Prod.mk.inj h).2
      exact extend_error haligned
        ((Keeps.allocate p 1).storeFrom (Nat.le_of_eq haligned) 0 values) hextend
    · rw [hextend] at h
      cases h

/-! ## The rows of a chunk -/

/-- The values that the first columns of a chunk have for its rows, if they are of the given types. -/
def offered? (c : Chunk) (types : List ColumnType) : Option (List Row) :=
  if c.types.take types.length = types then
    (List.range c.cardinality).mapM fun k =>
      (c.columns.take types.length).mapM fun v => (c.slot? k).bind v.get?
  else none

/-- A chunk with as many columns has the types of a layout when the check passes. -/
theorem checkTypes_eq_ok {types others : List ColumnType} (hlen : types.length ≤ others.length) :
    checkTypes types others = .ok () ↔ others.take types.length = types := by
  induction types generalizing others with
  | nil => exact iff_of_true rfl List.take_zero
  | cons t types ih =>
    cases others with
    | nil => cases hlen
    | cons u others =>
      rw [List.length_cons, List.take_succ_cons, List.cons.injEq, checkTypes,
        ← ih (Nat.le_of_succ_le_succ hlen)]
      split
      · rename_i heq
        exact (and_iff_right heq).symm
      · rename_i hne
        exact iff_of_false (fun h => by cases h) fun h => hne h.1

/-- All texts of some rows, column by column. -/
theorem textLength_columns {n : Nat} (h : ∀ values ∈ rows, values.length = n) :
    textLength ((List.range' 0 n).flatMap (columnOf rows)) = textLength rows.flatten := by
  have hcons : ∀ (values : Row) (rows : List Row) (columns : List Nat),
      textLength (columns.flatMap (columnOf (values :: rows))) =
        textLength (columns.map (values.getD · .null)) +
          textLength (columns.flatMap (columnOf rows)) := by
    intro values rows columns
    induction columns with
    | nil => rfl
    | cons column columns ih =>
      rw [List.flatMap_cons, textLength_append, ih, List.map_cons, textLength_cons,
        List.flatMap_cons, textLength_append, columnOf, List.map_cons, textLength_cons, columnOf]
      omega
  induction rows with
  | nil =>
    have hnone : (List.range' 0 n).flatMap (columnOf []) = [] :=
      List.flatMap_eq_nil_iff.mpr fun _ _ => rfl
    rw [hnone]
    rfl
  | cons values rows ih =>
    have hvalues : (List.range' 0 n).map (values.getD · .null) = values := by
      refine List.ext_getElem (by simp [h values List.mem_cons_self]) fun k hk hk' => ?_
      simp [hk']
    rw [hcons, hvalues, ih fun v hv => h v (List.mem_cons_of_mem _ hv), List.flatten_cons,
      textLength_append]

theorem length_columns_of_types {types : List ColumnType}
    (h : c.types.take types.length = types) :
    (c.columns.take types.length).length = types.length := by
  have := congrArg List.length h
  rwa [Chunk.types, ← List.map_take, List.length_map] at this

/-- The values of columns of some types fit them. -/
theorem fitsTypes_of_columnsHold {types : List ColumnType} (hc : ∀ v ∈ c.columns, v.Typed)
    (htypes : c.types.take types.length = types)
    (hread : ColumnsHold c (c.columns.take types.length) rows 0) {k : Nat}
    (hvalues : rows[k]? = some values) (hlen : values.length = types.length) :
    FitsTypes values types := by
  refine forall₂_iff_getElem?.mpr ⟨hlen, fun j x t hx ht => ?_⟩
  have hj : j < (c.columns.take types.length).length := by
    rw [length_columns_of_types htypes]
    exact (List.getElem?_eq_some_iff.mp ht).1
  obtain ⟨v, hv⟩ : ∃ v, (c.columns.take types.length)[j]? = some v :=
    ⟨_, List.getElem?_eq_getElem hj⟩
  have hget := (hread j v hv).2 k values hvalues
  rw [Nat.zero_add, List.getD_eq_getElem?_getD, hx] at hget
  obtain ⟨i, -, hget⟩ := Option.bind_eq_some_iff.mp hget
  have htype : v.type = t := by
    rw [← htypes, Chunk.types, ← List.map_take, List.getElem?_map, hv] at ht
    exact Option.some.inj ht
  exact htype ▸ hc v (List.mem_of_mem_take (List.mem_of_getElem? hv)) i x hget

/-- **What a chunk offers** is read from its columns. -/
theorem columnsHold_of_offered? (hplain : ∀ t ∈ l.types, t.isNested = false)
    (h : offered? c l.types = some rows) :
    c.types.take l.types.length = l.types ∧ rows.length = c.cardinality ∧
      (∀ values ∈ rows, values.length = l.types.length) ∧
      ColumnsHold c (c.columns.take l.types.length) rows 0 := by
  rw [offered?] at h
  split at h
  · rename_i htypes
    have hrows := forall₂_of_mapM h
    have hcolumns := length_columns_of_types htypes
    have hrow : ∀ (k : Nat) (values : Row), rows[k]? = some values → List.Forall₂
        (fun v x => (c.slot? k).bind v.get? = some x) (c.columns.take l.types.length) values :=
      fun k values hvalues => by
        obtain ⟨k', hk', hread⟩ := exists_left_of_forall₂ hrows hvalues
        obtain ⟨hlt, rfl⟩ := List.getElem?_eq_some_iff.mp hk'
        rw [List.getElem_range] at hread
        exact forall₂_of_mapM hread
    refine ⟨htypes, by rw [← hrows.length_eq, List.length_range], fun values hvalues => ?_,
      fun j v hv => ⟨?_, fun k values hvalues => ?_⟩⟩
    · obtain ⟨k, hk⟩ := List.mem_iff_getElem?.mp hvalues
      rw [← (hrow k values hk).length_eq, hcolumns]
    · refine hplain v.type (htypes ▸ ?_)
      rw [Chunk.types, ← List.map_take]
      exact List.mem_map_of_mem (List.mem_of_getElem? hv)
    · obtain ⟨x, hx, hread⟩ := exists_right_of_forall₂ (hrow k values hvalues) hv
      rw [Nat.zero_add, List.getD_eq_getElem?_getD, hx]
      exact hread
  · cases h

/-- **The rows of a chunk that can be added are added.** -/
theorem Records.appendChunk_ok (h : p.Records table) (hoffered : offered? c p.layout.types = some rows)
    (hadmits : Admits p.layout.types table rows) :
    ∃ q, p.appendChunk c = (.ok (p.size, p.size + rows.length), q) ∧ q.layout = p.layout ∧
      q.Records (table ++ rows) := by
  obtain ⟨htypes, hcount, hlengths, hread⟩ := columnsHold_of_offered? h.packs.plain hoffered
  obtain ⟨hroom, htext⟩ := h.room hadmits
  have hcolumns := length_columns_of_types htypes
  have htexts : textLength ((List.range' 0 (c.columns.take p.layout.types.length).length).flatMap
      (columnOf rows)) = textLength rows.flatten := by
    rw [hcolumns, textLength_columns hlengths]
  obtain ⟨q, hscatter, hlayout, hholds⟩ := (h.packs.allocate hadmits.1 hroom).scatterFrom hcount
    (Nat.le_of_eq (by rw [Nat.zero_add, hcolumns]; rfl)) hread (by rw [htexts]; exact htext)
  obtain ⟨-, hheap, -⟩ := reads_of_scatterFrom hscatter
  obtain ⟨hextend, hrecords⟩ := @Records.extend p q table rows h hadmits
    (scatterFrom c p.size 0 (c.columns.take p.layout.types.length))
    (by rw [h.packs.size_eq]; exact hscatter) hlayout
    (by rw [hheap rows hcount hread, htexts]; rfl)
    (hholds.congr fun j hj => by
      rw [hcolumns, Nat.zero_add]
      split <;> rfl)
  refine ⟨q, ?_, hlayout, hrecords⟩
  have hle : p.layout.types.length ≤ c.types.length := by
    rw [← htypes, List.length_take]
    exact Nat.min_le_right _ _
  have hmany : p.layout.types.length ≤ c.columns.length := by
    rwa [Chunk.types, List.length_map] at hle
  rw [PackedRows.appendChunk, if_neg (Nat.not_lt_of_le hmany), (checkTypes_eq_ok hle).mpr htypes]
  dsimp only
  rw [← hcount, hextend]
  rfl

/-- **A chunk whose rows are added offers them,** and they could be added. -/
theorem Records.admits_of_appendChunk (h : p.Records table) (hc : ∀ v ∈ c.columns, v.Typed)
    {added : Nat × Nat} (hok : p.appendChunk c = (.ok added, q)) :
    ∃ rows, offered? c p.layout.types = some rows ∧ Admits p.layout.types table rows := by
  rw [PackedRows.appendChunk] at hok
  split at hok
  · cases hok
  · rename_i hmany
    have hle : p.layout.types.length ≤ c.types.length := by
      rw [Chunk.types, List.length_map]
      exact Nat.le_of_not_lt hmany
    split at hok
    · cases hok
    · rename_i hcheck
      have htypes := (checkTypes_eq_ok hle).mp hcheck
      obtain ⟨⟨⟩, q', hextend, -⟩ := Attempt.andThen_eq_ok.mp hok
      obtain ⟨hroom, hscatter⟩ := extend_eq_ok.mp hextend
      obtain ⟨hreads, hheap, hlt⟩ := reads_of_scatterFrom hscatter
      obtain ⟨rows, hrows⟩ : ∃ rows, offered? c p.layout.types = some rows := by
        rw [offered?, if_pos htypes]
        exact exists_mapM_some fun k hk => exists_mapM_some fun v hv =>
          (hreads v hv).2 k (List.mem_range.mp hk)
      obtain ⟨-, hcount, hlengths, hhold⟩ := columnsHold_of_offered? h.packs.plain hrows
      have hcolumns := length_columns_of_types htypes
      refine ⟨rows, hrows, fun values hvalues => ?_, ?_, ?_⟩
      · obtain ⟨k, hk⟩ := List.mem_iff_getElem?.mp hvalues
        exact fitsTypes_of_columnsHold hc htypes hhold hk (hlengths values hvalues)
      · rw [List.length_append, ← h.packs.size_eq, hcount]
        exact of_decide_eq_true hroom
      · rw [List.flatten_append, textLength_append, ← h.heap_length, ← textLength_columns hlengths,
          ← hcolumns]
        have := hheap rows hcount hhold
        exact this ▸ hlt h.packs.heap_lt

/-- **A chunk that is refused leaves nothing behind.** -/
theorem appendChunk_error (haligned : p.bytes.length = p.size * p.layout.width) {e : MatchError}
    (h : p.appendChunk c = (.error e, q)) : q = p := by
  rw [PackedRows.appendChunk] at h
  split at h
  · exact (Prod.mk.inj h).2.symm
  · split at h
    · exact (Prod.mk.inj h).2.symm
    · rcases hextend : p.extend c.cardinality
          (scatterFrom c p.size 0 (c.columns.take p.layout.types.length)) with ⟨e' | ⟨⟩, p'⟩
      · rw [hextend] at h
        obtain rfl := (Prod.mk.inj h).2
        exact extend_error haligned
          ((Keeps.allocate p _).scatterFrom (Nat.le_of_eq haligned) c 0 _) hextend
      · rw [hextend] at h
        cases h

theorem appendRow_keeps (haligned : p.bytes.length = p.size * p.layout.width) {n : Nat}
    (h : p.appendRow values = (.ok n, q)) : p.Keeps q := by
  rw [PackedRows.appendRow] at h
  split at h
  · cases h
  · obtain ⟨⟨⟩, q', hextend, hq⟩ := Attempt.andThen_eq_ok.mp h
    obtain rfl := (Prod.mk.inj hq).2
    have hkeeps := (Keeps.allocate p 1).storeFrom (Nat.le_of_eq haligned) 0 values
    rwa [(extend_eq_ok.mp hextend).2] at hkeeps

theorem appendChunk_keeps (haligned : p.bytes.length = p.size * p.layout.width) {added : Nat × Nat}
    (h : p.appendChunk c = (.ok added, q)) : p.Keeps q := by
  rw [PackedRows.appendChunk] at h
  split at h
  · cases h
  · split at h
    · cases h
    · obtain ⟨⟨⟩, q', hextend, hq⟩ := Attempt.andThen_eq_ok.mp h
      obtain rfl := (Prod.mk.inj hq).2
      have hkeeps := (Keeps.allocate p c.cardinality).scatterFrom (Nat.le_of_eq haligned) c 0
        (c.columns.take p.layout.types.length)
      rwa [(extend_eq_ok.mp hextend).2] at hkeeps

/-! ## Tables of calls -/

/-- Before the first row is added. -/
theorem records_new (h : ∀ t ∈ l.types, t.isNested = false) : Records { layout := l } [] :=
  ⟨packs_new h, rfl⟩

/-- **A row is added when it can be,** and nothing changes when it cannot. -/
theorem Records.appendRow (h : p.Records table) (values : Row) :
    (Admits p.layout.types table [values] ∧ ∃ q, p.appendRow values = (.ok p.size, q) ∧
      q.layout = p.layout ∧ q.Records (table ++ [values])) ∨
    (¬Admits p.layout.types table [values] ∧ ∃ e, p.appendRow values = (.error e, p)) := by
  by_cases hadmits : Admits p.layout.types table [values]
  · exact .inl ⟨hadmits, h.appendRow_ok hadmits⟩
  · rcases happend : p.appendRow values with ⟨e | n, q⟩
    · exact .inr ⟨hadmits, e, by rw [appendRow_error h.packs.length_eq happend]⟩
    · exact absurd (h.admits_of_appendRow happend) hadmits

/-- A row that was added is recorded. -/
theorem Records.of_appendRow (h : p.Records table) {n : Nat}
    (hok : p.appendRow values = (.ok n, q)) : q.Records (table ++ [values]) := by
  obtain ⟨-, q', happend, -, hrecords⟩ | ⟨-, e, happend⟩ := h.appendRow values
  · obtain rfl := (Prod.mk.inj (happend.symm.trans hok)).2
    exact hrecords
  · cases happend.symm.trans hok

/-- Adds rows one by one, up to the first that is refused. -/
def appendRows (p : PackedRows) : List Row → Attempt MatchError PackedRows Unit
  | [] => (.ok (), p)
  | values :: rest => (p.appendRow values).andThen fun _ p' => p'.appendRows rest

theorem admits_cons {types : List ColumnType} :
    Admits types table (values :: rows) ↔
      Admits types table [values] ∧ Admits types (table ++ [values]) rows := by
  have hall : table ++ values :: rows = table ++ [values] ++ rows := List.append_cons ..
  rw [Admits, Admits, Admits, List.forall_mem_cons, List.forall_mem_singleton, hall]
  constructor
  · rintro ⟨⟨hfit, hfits⟩, hrows, htext⟩
    rw [List.length_append] at hrows
    rw [List.flatten_append, textLength_append] at htext
    exact ⟨⟨hfit, by omega, by omega⟩, hfits, by rwa [List.length_append],
      by rwa [List.flatten_append, textLength_append]⟩
  · rintro ⟨⟨hfit, -, -⟩, hfits, hrows, htext⟩
    exact ⟨⟨hfit, hfits⟩, hrows, htext⟩

/-- **Rows are added one by one** when all of them can be. -/
theorem Records.appendRows (h : p.Records table) (rows : List Row) :
    (Admits p.layout.types table rows ∧ ∃ q, p.appendRows rows = (.ok (), q) ∧
      q.layout = p.layout ∧ q.Records (table ++ rows)) ∨
    (¬Admits p.layout.types table rows ∧ ∃ e q, p.appendRows rows = (.error e, q)) := by
  induction rows generalizing p table with
  | nil =>
    refine .inl ⟨⟨fun _ hv => absurd hv List.not_mem_nil, ?_, ?_⟩, p, rfl, rfl, ?_⟩
    · rw [List.append_nil, ← h.packs.size_eq]
      exact h.packs.size_lt
    · rw [List.append_nil, ← h.heap_length]
      exact h.packs.heap_lt
    · rwa [List.append_nil]
  | cons values rest ih =>
    rw [admits_cons]
    obtain ⟨hone, p₁, happend, hlayout, hrecords⟩ | ⟨hnot, e, happend⟩ := h.appendRow values
    · obtain ⟨hrest, q, hok, hlayout', hrecords'⟩ | ⟨hnot, e, q, herror⟩ := ih hrecords
      · refine .inl ⟨⟨hone, hlayout ▸ hrest⟩, q, ?_, hlayout'.trans hlayout, ?_⟩
        · rw [PackedRows.appendRows, happend, Attempt.andThen_ok, hok]
        · rwa [List.append_cons]
      · refine .inr ⟨fun hand => hnot (hlayout ▸ hand.2), e, q, ?_⟩
        rw [PackedRows.appendRows, happend, Attempt.andThen_ok, herror]
    · refine .inr ⟨fun hand => hnot hand.1, e, p, ?_⟩
      rw [PackedRows.appendRows, happend, Attempt.andThen_error]

/-- A call that adds rows. -/
inductive Call where
  | row (values : Row)
  | chunk (c : Chunk)

namespace Call

/-- Adds the rows of a call and gives the number of the first and the one past the last. -/
def apply (p : PackedRows) : Call → Attempt MatchError PackedRows (Nat × Nat)
  | .row values => (p.appendRow values).andThen fun first p' => (.ok (first, first + 1), p')
  | .chunk c => p.appendChunk c

/-- The rows of a call, if its columns are of the given types. -/
def rows? (types : List ColumnType) : Call → Option (List Row)
  | .row values => some [values]
  | .chunk c => offered? c types

/-- Whether the columns of a chunk have values of their types. -/
def Typed : Call → Prop
  | .row _ => True
  | .chunk c => ∀ v ∈ c.columns, v.Typed

/-- What a call makes of a table, none when it is refused. -/
def onTable? (types : List ColumnType) (table : List Row) (call : Call) : Option (List Row) :=
  (call.rows? types).bind fun rows => if Admits types table rows then some (table ++ rows) else none

/-- Does calls one after the other, also after one that is refused. -/
def run (p : PackedRows) (calls : List Call) : PackedRows :=
  calls.foldl (fun p call => (call.apply p).2) p

/-- What calls make of a table, where those that are refused do nothing. -/
def runOnTable (types : List ColumnType) (table : List Row) (calls : List Call) : List Row :=
  calls.foldl (fun table call => (call.onTable? types table).getD table) table

theorem onTable?_eq_none {types : List ColumnType} {call : Call} :
    call.onTable? types table = none ↔
      ∀ rows, call.rows? types = some rows → ¬Admits types table rows := by
  rw [onTable?]
  cases call.rows? types with
  | none => simp
  | some rows => simp

end Call

/-- **A call adds its rows** behind the others when they can be added, and changes nothing when they
cannot. -/
theorem Records.call (h : p.Records table) {call : Call} (hcall : call.Typed) :
    (∃ rows q, call.rows? p.layout.types = some rows ∧ Admits p.layout.types table rows ∧
      call.apply p = (.ok (p.size, p.size + rows.length), q) ∧ p.Keeps q ∧
      q.Records (table ++ rows)) ∨
    ((∀ rows, call.rows? p.layout.types = some rows → ¬Admits p.layout.types table rows) ∧
      ∃ e, call.apply p = (.error e, p)) := by
  have haligned := h.packs.length_eq
  cases call with
  | row values =>
    obtain ⟨hadmits, q, happend, -, hrecords⟩ | ⟨hnot, e, happend⟩ := h.appendRow values
    · refine .inl ⟨[values], q, rfl, hadmits, by rw [Call.apply, happend]; rfl, ?_, hrecords⟩
      exact appendRow_keeps haligned happend
    · exact .inr ⟨fun rows hrows => Option.some.inj hrows ▸ hnot, e, by rw [Call.apply, happend]; rfl⟩
  | chunk c =>
    by_cases hexists : ∃ rows, offered? c p.layout.types = some rows ∧
        Admits p.layout.types table rows
    · obtain ⟨rows, hoffered, hadmits⟩ := hexists
      obtain ⟨q, happend, -, hrecords⟩ := h.appendChunk_ok hoffered hadmits
      exact .inl ⟨rows, q, hoffered, hadmits, happend, appendChunk_keeps haligned happend, hrecords⟩
    · refine .inr ⟨fun rows hrows hadmits => hexists ⟨rows, hrows, hadmits⟩, ?_⟩
      rcases happend : p.appendChunk c with ⟨e | added, q⟩
      · exact ⟨e, by rw [Call.apply, happend, appendChunk_error haligned happend]⟩
      · exact absurd (h.admits_of_appendChunk hcall happend) hexists

/-- **Packed rows record the table of their calls.** -/
theorem Records.run (h : p.Records table) {calls : List Call} (hcalls : ∀ call ∈ calls, call.Typed) :
    (Call.run p calls).layout = p.layout ∧
      (Call.run p calls).Records (Call.runOnTable p.layout.types table calls) := by
  induction calls generalizing p table with
  | nil => exact ⟨rfl, h⟩
  | cons call rest ih =>
    have hrest := fun other hother => hcalls other (List.mem_cons_of_mem _ hother)
    rw [Call.run, Call.runOnTable, List.foldl_cons, List.foldl_cons]
    obtain ⟨rows, q, hrows, hadmits, happly, hkeeps, hrecords⟩ | ⟨hnot, e, happly⟩ :=
      h.call (hcalls call List.mem_cons_self)
    · obtain ⟨hlayout, hall⟩ := ih hrecords hrest
      rw [happly, Call.onTable?, hrows, Option.bind_some, if_pos hadmits, Option.getD_some]
      exact ⟨hlayout.trans hkeeps.layout_eq, hkeeps.layout_eq ▸ hall⟩
    · rw [happly, Call.onTable?_eq_none.mpr hnot, Option.getD_none]
      exact ih h hrest

/-- **A column is gathered** from any rows, in any order. -/
theorem Packs.gather (h : p.Packs table) (ht : p.layout.types[column]? = some t) {picks : List Nat}
    (hpicks : ∀ i ∈ picks, i < table.length) :
    ∃ v, p.gather column picks = .ok v ∧ v.type = t ∧ v.capacity = picks.length ∧
      ∀ (k i : Nat) (values : Row), picks[k]? = some i → table[i]? = some values →
        v.get? k = values[column]? := by
  have hread : ∀ i ∈ picks, ∃ x, p.get? i column = some x ∧ x.fits t = true ∧
      ∀ values, table[i]? = some values → values[column]? = some x := fun i hi => by
    obtain ⟨values, hvalues⟩ : ∃ values, table[i]? = some values :=
      ⟨_, List.getElem?_eq_getElem (hpicks i hi)⟩
    have hfits := h.fits _ (List.mem_of_getElem? hvalues)
    obtain ⟨x, hx⟩ : ∃ x, values[column]? = some x :=
      ⟨_, List.getElem?_eq_getElem (hfits.length_eq ▸ (List.getElem?_eq_some_iff.mp ht).1)⟩
    obtain ⟨u, hu, hfit⟩ := type_of_fits hfits hx
    obtain rfl := Option.some.inj (ht.symm.trans hu)
    exact ⟨x, (h.get? hvalues hx).2, hfit, fun other hother =>
      Option.some.inj (hvalues.symm.trans hother) ▸ hx⟩
  obtain ⟨xs, hxs, hall⟩ := exists_mapM_forall₂ hread
  have hfit : ∀ x ∈ xs, x.fits t = true := fun x hx => by
    obtain ⟨i, -, -, hfit, -⟩ := exists_mem_left_of_forall₂ hall hx
    exact hfit
  obtain ⟨v, hv, htype, hcapacity, -, hvalues⟩ := ValueVector.ofValues_ok hfit
  refine ⟨v, ?_, htype, hcapacity.trans hall.length_eq.symm, fun k i values hi hrow => ?_⟩
  · rw [PackedRows.gather, ht, hxs]
    exact hv
  · obtain ⟨x, hx, -, -, hplace⟩ := exists_right_of_forall₂ hall hi
    rw [hvalues k x hx, hplace values hrow]

/-- **Packed rows are a table of values.**  Take any types that are no lists, and add rows of these
types by any calls, row by row or as the rows of chunks.

* The rows are those of the calls that were not refused.  Every value is read back as it was given,
  and a column of any rows is gathered as they hold it.
* One more call is accepted when its rows fit and find room, in the heap too, and then the bytes of
  the rows that were there are the same; a call that is refused leaves everything as it was.
* Rows that are added as a chunk could have been added one by one, and are then read the same; of the
  rows of a chunk that is refused one would have been. -/
theorem run_as_table {types : List ColumnType} (hplain : ∀ t ∈ types, t.isNested = false)
    {calls : List Call} (hcalls : ∀ call ∈ calls, call.Typed) :
    ∃ l p, RowLayout.new types = .ok l ∧ p = Call.run { layout := l } calls ∧
      let table := Call.runOnTable types [] calls
      (p.size = table.length ∧ (∀ values ∈ table, FitsTypes values types) ∧
        (∀ (i column : Nat) (values : Row) (x : Scalar), table[i]? = some values →
          values[column]? = some x → p.isValid? i column = some !x.isNull ∧
            p.get? i column = some x) ∧
        ∀ (column : Nat) (t : ColumnType) (picks : List Nat), types[column]? = some t →
          (∀ i ∈ picks, i < table.length) → ∃ v, p.gather column picks = .ok v ∧ v.type = t ∧
            v.capacity = picks.length ∧ ∀ (k i : Nat) (values : Row), picks[k]? = some i →
              table[i]? = some values → v.get? k = values[column]?) ∧
      ∀ call : Call, call.Typed →
        (∃ rows q q', call.rows? types = some rows ∧
          call.onTable? types table = some (table ++ rows) ∧
          call.apply p = (.ok (p.size, p.size + rows.length), q) ∧
          (∀ i < p.size, q.row? i = p.row? i) ∧
          p.appendRows rows = (.ok (), q') ∧ q'.size = q.size ∧
          ∀ i < q.size, ∀ column < types.length,
            q'.isValid? i column = q.isValid? i column ∧ q'.get? i column = q.get? i column) ∨
        (∃ e, call.apply p = (.error e, p) ∧ call.onTable? types table = none ∧
          ∀ rows, call.rows? types = some rows → ∃ e q, p.appendRows rows = (.error e, q)) := by
  obtain ⟨hlayout, h⟩ := (records_new (l := ⟨types⟩) hplain).run hcalls
  refine ⟨⟨types⟩, _, RowLayout.new_ok hplain, rfl, ?_⟩
  intro table
  have htypes : (Call.run { layout := ⟨types⟩ } calls).layout.types = types :=
    congrArg RowLayout.types hlayout
  generalize Call.run { layout := ⟨types⟩ } calls = p at h htypes ⊢
  subst htypes
  refine ⟨⟨h.packs.size_eq, h.packs.fits, fun i column values x => h.packs.get?,
    fun column t picks ht hpicks => h.packs.gather ht hpicks⟩, fun call hcall => ?_⟩
  obtain ⟨rows, q, hrows, hadmits, happly, hkeeps, hrecords⟩ | ⟨hnot, e, happly⟩ := h.call hcall
  · obtain ⟨-, q', hall, -, hrecords'⟩ | ⟨hnot, -⟩ := h.appendRows rows
    · refine .inl ⟨rows, q, q', hrows, by rw [Call.onTable?, hrows, Option.bind_some, if_pos hadmits],
        happly, fun i hi => hkeeps.row?_eq h.packs.length_eq hi, hall,
        hrecords'.packs.size_eq.trans hrecords.packs.size_eq.symm, fun i hi column hcolumn => ?_⟩
      obtain ⟨values, hvalues⟩ : ∃ values, (table ++ rows)[i]? = some values :=
        ⟨_, List.getElem?_eq_getElem (hrecords.packs.size_eq ▸ hi)⟩
      have hlen := (hrecords.packs.fits values (List.mem_of_getElem? hvalues)).length_eq
      rw [hkeeps.layout_eq] at hlen
      obtain ⟨x, hx⟩ : ∃ x, values[column]? = some x := ⟨_, List.getElem?_eq_getElem (hlen ▸ hcolumn)⟩
      obtain ⟨hvalid, hget⟩ := hrecords.packs.get? hvalues hx
      obtain ⟨hvalid', hget'⟩ := hrecords'.packs.get? hvalues hx
      exact ⟨hvalid'.trans hvalid.symm, hget'.trans hget.symm⟩
    · exact absurd hadmits hnot
  · refine .inr ⟨e, happly, Call.onTable?_eq_none.mpr hnot, fun rows hrows => ?_⟩
    obtain ⟨hadmits, -⟩ | ⟨-, e', q, herror⟩ := h.appendRows rows
    · exact absurd hadmits (hnot rows hrows)
    · exact ⟨e', q, herror⟩

/-- Two columns of two slots, of which a selection makes three rows. -/
def pickedChunk : Chunk where
  columns := [.flat .varchar (.new 2) #[.varchar "x", .varchar "yz"],
    .flat .integer ⟨2, some ((Array.replicate 64 true).setIfInBounds 1 false)⟩
      #[.integer 8, .integer 0]]
  cardinality := 3
  capacity := 2
  selection := some [1, 0, 1]

/-- A row, one that is refused after its text was written, and the rows of a chunk. -/
def threeCalls : List Call :=
  [.row [.varchar "ab", .integer 5], .row [.varchar "c", .boolean true], .chunk pickedChunk]

theorem threeCalls_typed : ∀ call ∈ threeCalls, call.Typed := by
  have htexts : (ValueVector.flat .varchar (.new 2) #[.varchar "x", .varchar "yz"]).Sound :=
    ⟨rfl, Validity.sound_new 2, rfl, by decide⟩
  have hnumbers : (ValueVector.flat .integer
      ⟨2, some ((Array.replicate 64 true).setIfInBounds 1 false)⟩ #[.integer 8, .integer 0]).Sound := by
    refine ⟨rfl, ?_, rfl, by decide⟩
    rintro _ ⟨⟩
    rfl
  intro call hcall
  obtain rfl | rfl | rfl := by simpa [threeCalls] using hcall
  · exact trivial
  · exact trivial
  · exact List.forall_mem_cons.mpr ⟨htexts.typed, List.forall_mem_singleton.mpr hnumbers.typed⟩

/-- What the calls leave: the first row, and the rows of the chunk behind it. -/
theorem run_as_table_three :
    let p := Call.run { layout := ⟨[.varchar, .integer]⟩ } threeCalls
    p.size = 4 ∧ p.get? 0 0 = some (.varchar "ab") ∧ p.get? 1 0 = some (.varchar "yz") ∧
      p.get? 1 1 = some .null ∧ p.get? 2 0 = some (.varchar "x") ∧
      p.get? 2 1 = some (.integer 8) ∧ p.get? 3 0 = some (.varchar "yz") := by
  obtain ⟨l, p, hl, hp, ⟨hsize, -, hget, -⟩, -⟩ :=
    @run_as_table [.varchar, .integer] (by decide) threeCalls threeCalls_typed
  obtain rfl := Except.ok.inj hl
  have htable : Call.runOnTable [.varchar, .integer] [] threeCalls =
      [[.varchar "ab", .integer 5], [.varchar "yz", .null], [.varchar "x", .integer 8],
        [.varchar "yz", .null]] := rfl
  rw [htable] at hsize hget
  subst hp
  exact ⟨hsize, (hget 0 0 _ _ rfl rfl).2, (hget 1 0 _ _ rfl rfl).2, (hget 1 1 _ _ rfl rfl).2,
    (hget 2 0 _ _ rfl rfl).2, (hget 2 1 _ _ rfl rfl).2, (hget 3 0 _ _ rfl rfl).2⟩

end PackedRows
end ColumnStore
