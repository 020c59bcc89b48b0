/-
# Who wrote what

A transaction that deletes a row or writes over it owns the row, or that column of it, until it
ends: its number stands there for a stamp, and its records name the row.  Where no number stands the
row is settled.  The lemmas say for each kind of change, in a single row, that this stays true.
-/

import ColumnStore.Proofs.Table.Settling
import ColumnStore.Transaction.Basic

namespace ColumnStore

namespace UndoRecord

/-- The rows of a table that were deleted by a change. -/
def deletedRows (table : TableId) : UndoRecord → List Nat
  | .delete t rows => if t = table then committedRows rows else []
  | _ => []

/-- The rows of a table that were written over by a change of a column, with the values before. -/
def imagePairs (table : TableId) (column : Nat) : UndoRecord → List (Nat × Scalar)
  | .update t i rows before =>
    if t = table ∧ i = column then (rows.zip before).filter (!isLocalRow ·.1) else []
  | _ => []

variable (table t : TableId) (column i : Nat) (rows : List Nat)

@[simp] theorem deletedRows_insert (start count : Nat) :
    deletedRows table (.insert t start count) = [] := rfl

@[simp] theorem deletedRows_update (before : List Scalar) :
    deletedRows table (.update t i rows before) = [] := rfl

@[simp] theorem imagePairs_insert (start count : Nat) :
    imagePairs table column (.insert t start count) = [] := rfl

@[simp] theorem imagePairs_delete : imagePairs table column (.delete t rows) = [] := rfl

end UndoRecord

namespace Transaction

/-- The rows of a table that a transaction has deleted, local ones apart. -/
def deletedRows (x : Transaction) (table : TableId) : List Nat :=
  x.undo.flatMap (·.deletedRows table)

/-- What a transaction saw in a column of a row before each of its writes. -/
def images (x : Transaction) (table : TableId) (column row : Nat) : List Scalar :=
  valuesFor row (x.undo.flatMap (·.imagePairs table column))

end Transaction

/-! ## Rows -/

/-- A row that nobody deletes at the moment. -/
def RowSettled (last : Stamp) (active : List Transaction) (table : TableId) (row : Nat)
    (st : RowStamps) : Prop :=
  (st.deleted ≤ last ∨ st.deleted = neverDeleted) ∧ ∀ x ∈ active, row ∉ x.deletedRows table

/-- A row that a transaction deletes. -/
def RowHeld (active : List Transaction) (table : TableId) (row : Nat) (st : RowStamps) : Prop :=
  ∃ x ∈ active, st.deleted = x.id ∧ row ∈ x.deletedRows table ∧
    ∀ y ∈ active, y.id ≠ x.id → row ∉ y.deletedRows table

/-- The stamps of a row, if it is there, agree with the records of the active transactions. -/
def RowOwned (last : Stamp) (active : List Transaction) (table : TableId) (row : Nat) :
    Option RowStamps → Prop
  | none => ∀ x ∈ active, row ∉ x.deletedRows table
  | some st =>
    st.inserted ≤ last ∧
      (RowSettled last active table row st ∨ RowHeld active table row st)

section Row

variable {last time : Stamp} {x x' : Transaction} {others : List Transaction} {table : TableId}
  {row : Nat} {st : RowStamps} {o : Option RowStamps}

theorem RowOwned.congr {active active' : List Transaction}
    (h : RowOwned last active table row o) (hm : ∀ y, y ∈ active' ↔ y ∈ active) :
    RowOwned last active' table row o := by
  cases o with
  | none => exact fun y hy => h y ((hm y).mp hy)
  | some st =>
    obtain ⟨hi, ⟨hd, hn⟩ | ⟨y, hy, hd, hr, hn⟩⟩ := h
    · exact ⟨hi, Or.inl ⟨hd, fun y hy => hn y ((hm y).mp hy)⟩⟩
    · exact ⟨hi, Or.inr ⟨y, (hm y).mpr hy, hd, hr, fun z hz => hn z ((hm z).mp hz)⟩⟩

theorem RowOwned.mono (h : RowOwned last others table row o) (ht : last ≤ time) :
    RowOwned time others table row o := by
  cases o with
  | none => exact h
  | some st =>
    obtain ⟨hi, ⟨hd, hn⟩ | hheld⟩ := h
    · exact ⟨Nat.le_trans hi ht, Or.inl ⟨hd.imp_left (Nat.le_trans · ht), hn⟩⟩
    · exact ⟨Nat.le_trans hi ht, Or.inr hheld⟩

/-- A transaction that deletes nothing owns no row. -/
theorem RowOwned.insert (h : RowOwned last others table row o) (hx : x.deletedRows table = []) :
    RowOwned last (x :: others) table row o := by
  have hnot : row ∉ x.deletedRows table := by simp [hx]
  cases o with
  | none => exact List.forall_mem_cons.mpr ⟨hnot, h⟩
  | some st =>
    obtain ⟨hi, ⟨hd, hn⟩ | ⟨y, hy, hd, hr, hn⟩⟩ := h
    · exact ⟨hi, Or.inl ⟨hd, List.forall_mem_cons.mpr ⟨hnot, hn⟩⟩⟩
    · exact ⟨hi, Or.inr ⟨y, List.mem_cons_of_mem _ hy, hd, hr,
        List.forall_mem_cons.mpr ⟨fun _ => hnot, hn⟩⟩⟩

/-- A row that a transaction does not own can do without it. -/
theorem RowOwned.release (h : RowOwned last (x :: others) table row o)
    (hx : row ∉ x.deletedRows table) : RowOwned last others table row o := by
  cases o with
  | none => exact fun y hy => h y (List.mem_cons_of_mem _ hy)
  | some st =>
    obtain ⟨hi, ⟨hd, hn⟩ | ⟨y, hy, hd, hr, hn⟩⟩ := h
    · exact ⟨hi, Or.inl ⟨hd, fun y hy => hn y (List.mem_cons_of_mem _ hy)⟩⟩
    · rcases List.mem_cons.mp hy with rfl | hy
      · exact absurd hr hx
      · exact ⟨hi, Or.inr ⟨y, hy, hd, hr, fun z hz => hn z (List.mem_cons_of_mem _ hz)⟩⟩

/-- Records that agree about a row are as good as each other. -/
theorem RowOwned.replace (h : RowOwned last (x :: others) table row o) (hid : x'.id = x.id)
    (hx : row ∈ x'.deletedRows table ↔ row ∈ x.deletedRows table) :
    RowOwned last (x' :: others) table row o := by
  have hall : ∀ {p : Transaction → Prop}, (∀ y ∈ x :: others, p y → row ∉ y.deletedRows table) →
      (p x' → p x) → ∀ y ∈ x' :: others, p y → row ∉ y.deletedRows table := by
    intro p hn hp
    refine List.forall_mem_cons.mpr ⟨fun hx' => ?_, fun y hy => hn y (List.mem_cons_of_mem _ hy)⟩
    rw [hx]
    exact hn x List.mem_cons_self (hp hx')
  cases o with
  | none => exact fun y hy => hall (p := fun _ => True) (fun y hy _ => h y hy) id y hy trivial
  | some st =>
    obtain ⟨hi, ⟨hd, hn⟩ | ⟨y, hy, hd, hr, hn⟩⟩ := h
    · exact ⟨hi, Or.inl ⟨hd, fun y hy =>
        hall (p := fun _ => True) (fun y hy _ => hn y hy) id y hy trivial⟩⟩
    · refine ⟨hi, Or.inr ?_⟩
      rcases List.mem_cons.mp hy with rfl | hy
      · exact ⟨x', List.mem_cons_self, hd.trans hid.symm, hx.mpr hr,
          hid ▸ hall hn fun h => hid ▸ h⟩
      · exact ⟨y, List.mem_cons_of_mem _ hy, hd, hr, hall hn fun h => hid ▸ h⟩

/-- A row that nobody has deleted is free. -/
theorem RowOwned.free {active : List Transaction} (h : RowOwned last active table row (some st))
    (hd : st.deleted = neverDeleted) (hids : ∀ y ∈ active, y.id < neverDeleted) :
    ∀ y ∈ active, row ∉ y.deletedRows table := by
  obtain ⟨-, ⟨-, hn⟩ | ⟨y, hy, hy', -, -⟩⟩ := h
  · exact hn
  · exact absurd (hy'.symm.trans hd) (Nat.ne_of_lt (hids y hy))

/-- **A transaction that marks a row deleted owns it.** -/
theorem RowOwned.mark (h : RowOwned last (x :: others) table row (some st))
    (hd : st.deleted = neverDeleted) (hids : ∀ y ∈ x :: others, y.id < neverDeleted)
    (hid : x'.id = x.id) (hx' : row ∈ x'.deletedRows table) :
    RowOwned last (x' :: others) table row (some (st.withDeleted x.id)) := by
  have hfree := h.free hd hids
  refine ⟨h.1, Or.inr ⟨x', List.mem_cons_self, hid.symm, hx', ?_⟩⟩
  exact List.forall_mem_cons.mpr
    ⟨fun hne => absurd rfl hne, fun y hy _ => hfree y (List.mem_cons_of_mem _ hy)⟩

/-- What stands in a row that a transaction deletes. -/
theorem RowOwned.held (h : RowOwned last (x :: others) table row (some st))
    (ho : ∀ y ∈ others, y.id ≠ x.id) (hx : row ∈ x.deletedRows table) :
    st.deleted = x.id ∧ ∀ y ∈ others, row ∉ y.deletedRows table := by
  obtain ⟨-, ⟨-, hn⟩ | ⟨y, hy, hd, hr, hn⟩⟩ := h
  · exact absurd hx (hn x List.mem_cons_self)
  · rcases List.mem_cons.mp hy with rfl | hy
    · exact ⟨hd, fun z hz => hn z (List.mem_cons_of_mem _ hz) (ho z hz)⟩
    · exact absurd hx (hn x List.mem_cons_self (ho y hy).symm)

/-- **A deletion that is taken back leaves the row to nobody.** -/
theorem RowOwned.unmark (h : RowOwned last (x :: others) table row (some st))
    (ho : ∀ y ∈ others, y.id ≠ x.id) (hx : row ∈ x.deletedRows table)
    (hx' : row ∉ x'.deletedRows table) :
    RowOwned last (x' :: others) table row (some (st.withDeleted neverDeleted)) :=
  ⟨h.1, Or.inl ⟨Or.inr rfl, List.forall_mem_cons.mpr ⟨hx', (h.held ho hx).2⟩⟩⟩

/-- A row that a transaction does not delete does not carry its number. -/
theorem RowOwned.deleted_ne (h : RowOwned last (x :: others) table row (some st))
    (ho : ∀ y ∈ others, y.id ≠ x.id) (hid : last < x.id) (hlt : x.id < neverDeleted)
    (hx : row ∉ x.deletedRows table) : st.deleted ≠ x.id := by
  obtain ⟨-, ⟨hd | hd, -⟩ | ⟨y, hy, hd, hr, -⟩⟩ := h.release hx
  · exact Nat.ne_of_lt (Nat.lt_of_le_of_lt hd hid)
  · rw [hd]
    exact (Nat.ne_of_lt hlt).symm
  · rw [hd]
    exact ho y hy

/-- **A deletion that is committed leaves the row settled.** -/
theorem RowOwned.settle (h : RowOwned last (x :: others) table row (some st))
    (ho : ∀ y ∈ others, y.id ≠ x.id) (ht : last < time) (hx : row ∈ x.deletedRows table) :
    RowOwned time others table row (some (st.commitDelete x.id time)) := by
  obtain ⟨hd, hn⟩ := h.held ho hx
  rw [RowStamps.commitDelete, if_pos hd]
  exact ⟨Nat.le_trans h.1 (Nat.le_of_lt ht), Or.inl ⟨Or.inl (Nat.le_refl _), hn⟩⟩

end Row

/-! ## Columns of rows -/

/-- A column of a row that nobody writes to at the moment. -/
def CellSettled (last : Stamp) (active : List Transaction) (table : TableId) (column row : Nat)
    (chain : List Version) : Prop :=
  (∀ v ∈ chain, v.stamp ≤ last) ∧ ∀ x ∈ active, x.images table column row = []

/-- A column of a row that transaction `x` writes to: it has put `values` behind the versions of
others, of which it saw the newest before. -/
structure CellHeldBy (last : Stamp) (active : List Transaction) (table : TableId)
    (column row : Nat) (under : Except StorageError Scalar) (chain : List Version)
    (x : Transaction) (settled : List Version) (values : List Scalar) : Prop where
  mem : x ∈ active
  chain_eq : chain = settled ++ versionsOf x.id values
  nonempty : values ≠ []
  settled_le : ∀ v ∈ settled, v.stamp ≤ last
  newest : ∀ v, settled.getLast? = some v → v.stamp ≤ x.start
  images_eq : ∃ below, readOver under settled x.snapshot = .ok below ∧
    x.images table column row = (below :: values).dropLast
  others : ∀ y ∈ active, y.id ≠ x.id → y.images table column row = []

/-- The versions of a column of a row agree with the records of the active transactions. -/
def CellOwned (last : Stamp) (active : List Transaction) (table : TableId) (column row : Nat)
    (under : Except StorageError Scalar) (chain : List Version) : Prop :=
  CellSettled last active table column row chain ∨
    ∃ x settled values,
      CellHeldBy last active table column row under chain x settled values

section Cell

variable {last time : Stamp} {x x' : Transaction} {others : List Transaction} {table : TableId}
  {column row : Nat} {under : Except StorageError Scalar} {chain : List Version}

theorem CellOwned.congr {active active' : List Transaction}
    (h : CellOwned last active table column row under chain) (hm : ∀ y, y ∈ active' ↔ y ∈ active) :
    CellOwned last active' table column row under chain := by
  rcases h with ⟨hs, hn⟩ | ⟨y, settled, values, hy⟩
  · exact Or.inl ⟨hs, fun y hy => hn y ((hm y).mp hy)⟩
  · exact Or.inr ⟨y, settled, values, { hy with
      mem := (hm y).mpr hy.mem
      others := fun z hz => hy.others z ((hm z).mp hz) }⟩

theorem CellOwned.mono (h : CellOwned last others table column row under chain)
    (ht : last ≤ time) : CellOwned time others table column row under chain := by
  rcases h with ⟨hs, hn⟩ | ⟨y, settled, values, hy⟩
  · exact Or.inl ⟨fun v hv => Nat.le_trans (hs v hv) ht, hn⟩
  · exact Or.inr ⟨y, settled, values, { hy with
      settled_le := fun v hv => Nat.le_trans (hy.settled_le v hv) ht }⟩

/-- A transaction that writes nothing owns no column of a row. -/
theorem CellOwned.insert (h : CellOwned last others table column row under chain)
    (hx : x.images table column row = []) :
    CellOwned last (x :: others) table column row under chain := by
  rcases h with ⟨hs, hn⟩ | ⟨y, settled, values, hy⟩
  · exact Or.inl ⟨hs, List.forall_mem_cons.mpr ⟨hx, hn⟩⟩
  · exact Or.inr ⟨y, settled, values, { hy with
      mem := List.mem_cons_of_mem _ hy.mem
      others := List.forall_mem_cons.mpr ⟨fun _ => hx, hy.others⟩ }⟩

theorem length_dropLast_cons (below : Scalar) (values : List Scalar) :
    (below :: values).dropLast.length = values.length := by simp

/-- What a transaction that has written to a column of a row put there. -/
theorem CellOwned.held (h : CellOwned last (x :: others) table column row under chain)
    (ho : ∀ y ∈ others, y.id ≠ x.id) (hx : x.images table column row ≠ []) :
    ∃ settled values,
      CellHeldBy last (x :: others) table column row under chain x settled values := by
  rcases h with ⟨-, hn⟩ | ⟨y, settled, values, hy⟩
  · exact absurd (hn x List.mem_cons_self) hx
  · rcases List.mem_cons.mp hy.mem with rfl | hm
    · exact ⟨settled, values, hy⟩
    · exact absurd (hy.others x List.mem_cons_self (ho y hm).symm) hx

/-- A column of a row that a transaction does not own can do without it. -/
theorem CellOwned.release (h : CellOwned last (x :: others) table column row under chain)
    (hx : x.images table column row = []) : CellOwned last others table column row under chain := by
  rcases h with ⟨hs, hn⟩ | ⟨y, settled, values, hy⟩
  · exact Or.inl ⟨hs, fun y hy => hn y (List.mem_cons_of_mem _ hy)⟩
  · rcases List.mem_cons.mp hy.mem with rfl | hm
    · obtain ⟨below, -, hi⟩ := hy.images_eq
      have := length_dropLast_cons below values
      rw [← hi, hx] at this
      exact absurd (List.length_eq_zero_iff.mp this.symm) hy.nonempty
    · exact Or.inr ⟨y, settled, values, { hy with
        mem := hm
        others := fun z hz => hy.others z (List.mem_cons_of_mem _ hz) }⟩

/-- Records that agree about a column of a row are as good as each other. -/
theorem CellOwned.replace (h : CellOwned last (x :: others) table column row under chain)
    (hid : x'.id = x.id) (hstart : x'.start = x.start)
    (hx : x'.images table column row = x.images table column row) :
    CellOwned last (x' :: others) table column row under chain := by
  have hsnap : x'.snapshot = x.snapshot := by rw [Transaction.snapshot, hid, hstart]; rfl
  have hall : ∀ {p : Transaction → Prop},
      (∀ y ∈ x :: others, p y → y.images table column row = []) → (p x' → p x) →
      ∀ y ∈ x' :: others, p y → y.images table column row = [] := by
    intro p hn hp
    refine List.forall_mem_cons.mpr ⟨fun hx' => ?_, fun y hy => hn y (List.mem_cons_of_mem _ hy)⟩
    rw [hx]
    exact hn x List.mem_cons_self (hp hx')
  rcases h with ⟨hs, hn⟩ | ⟨y, settled, values, hy⟩
  · exact Or.inl ⟨hs, fun y hy =>
      hall (p := fun _ => True) (fun y hy _ => hn y hy) id y hy trivial⟩
  · rcases List.mem_cons.mp hy.mem with rfl | hm
    · exact Or.inr ⟨x', settled, values, List.mem_cons_self, hid ▸ hy.chain_eq, hy.nonempty,
        hy.settled_le, hstart ▸ hy.newest, by rw [hsnap, hx]; exact hy.images_eq,
        hid ▸ hall hy.others fun h => hid ▸ h⟩
    · exact Or.inr ⟨y, settled, values, { hy with
        mem := List.mem_cons_of_mem _ hm
        others := hall hy.others fun h => hid ▸ h }⟩

/-- What is put in front of a last value and taken off again. -/
theorem dropLast_cons_append (below x : Scalar) (values more : List Scalar)
    (hx : (below :: values).getLast (List.cons_ne_nil _ _) = x) :
    (below :: (values ++ more)).dropLast = (below :: values).dropLast ++ (x :: more).dropLast := by
  cases more with
  | nil => simp
  | cons y ys =>
    rw [← List.cons_append, List.dropLast_append_of_ne_nil (List.cons_ne_nil _ _),
      List.dropLast_cons_cons]
    conv_lhs => rw [← List.dropLast_append_getLast (List.cons_ne_nil below values), hx]
    rw [List.append_assoc, List.singleton_append]

theorem readOver_append_own {s : Snapshot} (settled : List Version) (below : Scalar)
    (values : List Scalar) (hb : readOver under settled s = .ok below) :
    readOver under (settled ++ versionsOf s.transaction values) s =
      .ok ((below :: values).getLast (List.cons_ne_nil _ _)) := by
  rcases List.eq_nil_or_concat values with rfl | ⟨front, y, rfl⟩
  · simpa using hb
  · rw [List.concat_eq_append, versionsOf, List.map_append, List.map_singleton,
      ← List.append_assoc, readOver_snoc, if_pos (sees_own s)]
    simp

theorem getLast?_append_versions (settled : List Version) (stamp : Stamp) {values : List Scalar}
    (h : values ≠ []) :
    (settled ++ versionsOf stamp values).getLast? =
      some ⟨stamp, values.getLast h⟩ := by
  rw [versionsOf, List.getLast?_append, List.getLast?_map, List.getLast?_eq_some_getLast h]
  rfl

/-- **A transaction that writes to a column of a row owns it.**  The check before the write has
found that nobody else has written there since the transaction began. -/
theorem CellOwned.write (h : CellOwned last (x :: others) table column row under chain)
    (ho : ∀ y ∈ others, y.id ≠ x.id) (hids : ∀ y ∈ x :: others, last < y.id)
    (hstart : x.start ≤ last) {more : List Scalar} (hmore : more ≠ [])
    (hnewest : ∀ v, chain.getLast? = some v → x.snapshot.sees v.stamp = true) {before : Scalar}
    (hbefore : readOver under chain x.snapshot = .ok before) (hid : x'.id = x.id)
    (hstart' : x'.start = x.start)
    (hx' : x'.images table column row =
      x.images table column row ++ (before :: more).dropLast) :
    CellOwned last (x' :: others) table column row under (chain ++ versionsOf x.id more) := by
  have hsnap : x'.snapshot = x.snapshot := by rw [Transaction.snapshot, hid, hstart']; rfl
  have hxid : last < x.id := hids x List.mem_cons_self
  rcases h with ⟨hs, hn⟩ | ⟨y, settled, values, hy⟩
  · refine Or.inr ⟨x', chain, more, List.mem_cons_self, by rw [hid], hmore, hs, fun v hv => ?_,
      ⟨before, hsnap ▸ hbefore, by rw [hx', hn x List.mem_cons_self, List.nil_append]⟩,
      List.forall_mem_cons.mpr ⟨fun hne => absurd rfl hne, fun y hy _ =>
        hn y (List.mem_cons_of_mem _ hy)⟩⟩
    rcases sees_iff.mp (hnewest v hv) with hle | heq
    · exact hstart' ▸ hle
    · have hle := hs v (List.mem_of_getLast? hv)
      rw [heq] at hle
      exact absurd hle (Nat.not_le_of_lt hxid)
  · have hlast := getLast?_append_versions settled y.id hy.nonempty
    rw [← hy.chain_eq] at hlast
    rcases List.mem_cons.mp hy.mem with rfl | hm
    · obtain ⟨below, hb, hi⟩ := hy.images_eq
      have hread := readOver_append_own settled below values hb
      rw [show y.snapshot.transaction = y.id from rfl, ← hy.chain_eq, hbefore] at hread
      refine Or.inr ⟨x', settled, values ++ more, List.mem_cons_self, ?_, by simp [hmore],
        hy.settled_le, hstart' ▸ hy.newest, ⟨below, hsnap ▸ hb, ?_⟩,
        List.forall_mem_cons.mpr ⟨fun hne => absurd rfl hne, fun z hz hne =>
          hy.others z (List.mem_cons_of_mem _ hz) (hid ▸ hne)⟩⟩
      · rw [hy.chain_eq, hid, versionsOf, versionsOf, versionsOf, List.map_append,
          List.append_assoc]
      · rw [hx', hi, dropLast_cons_append below before values more (Except.ok.inj hread).symm]
    · rcases sees_iff.mp (hnewest _ hlast) with hle | heq
      · exact absurd (Nat.le_trans hle hstart)
          (Nat.not_le_of_lt (hids y (List.mem_cons_of_mem _ hm)))
      · exact absurd heq (ho y hm)

/-- **The newest write of a transaction can be taken back:** it stands last, and without it the
transaction sees what it saw before. -/
theorem CellOwned.unwrite (h : CellOwned last (x :: others) table column row under chain)
    (ho : ∀ y ∈ others, y.id ≠ x.id) {images : List Scalar} {before : Scalar}
    (hx : x.images table column row = images ++ [before]) (hid : x'.id = x.id)
    (hstart : x'.start = x.start) (hx' : x'.images table column row = images) :
    ∃ front y, chain = front ++ [⟨x.id, y⟩] ∧ readOver under front x.snapshot = .ok before ∧
      CellOwned last (x' :: others) table column row under front := by
  have hsnap : x'.snapshot = x.snapshot := by rw [Transaction.snapshot, hid, hstart]; rfl
  obtain ⟨settled, values, hheld⟩ := h.held ho (by simp [hx])
  obtain ⟨below, hb, hi⟩ := hheld.images_eq
  have hothers : ∀ z ∈ others, z.images table column row = [] := fun z hz =>
    hheld.others z (List.mem_cons_of_mem _ hz) (ho z hz)
  rcases List.eq_nil_or_concat values with rfl | ⟨front, y, rfl⟩
  · exact absurd rfl hheld.nonempty
  rw [List.concat_eq_append] at hheld hi
  -- The values before the writes are all but the last of those that were there.
  have hsplit : images ++ [before] = below :: front := by
    rw [← hx, hi, ← List.cons_append, List.dropLast_concat]
  have hlast : (below :: front).getLast (List.cons_ne_nil _ _) = before := by
    simp [← hsplit]
  have hinit : (below :: front).dropLast = images := by
    rw [← hsplit, List.dropLast_concat]
  refine ⟨settled ++ versionsOf x.id front, y, ?_, ?_, ?_⟩
  · rw [hheld.chain_eq, versionsOf, versionsOf, List.map_append, List.append_assoc]
    rfl
  · have := readOver_append_own settled below front hb
    rwa [hlast] at this
  · by_cases hfront : front = []
    · subst hfront
      refine Or.inl ⟨by simpa using hheld.settled_le, List.forall_mem_cons.mpr ⟨?_, hothers⟩⟩
      rw [hx', ← hinit]
      rfl
    · exact Or.inr ⟨x', settled, front, List.mem_cons_self, by rw [hid], hfront,
        hheld.settled_le, hstart ▸ hheld.newest, ⟨below, hsnap ▸ hb, by rw [hx', hinit]⟩,
        List.forall_mem_cons.mpr ⟨fun hne => absurd rfl hne, fun z hz _ => hothers z hz⟩⟩

theorem map_restamp_of_ne {id : Stamp} (h : ∀ v ∈ chain, v.stamp ≠ id) :
    chain.map (Overlay.restamp id time) = chain := by
  conv_rhs => rw [← List.map_id chain]
  exact List.map_congr_left fun v hv => if_neg (h v hv)

theorem map_restamp_versionsOf (id : Stamp) (values : List Scalar) :
    (versionsOf id values).map (Overlay.restamp id time) = versionsOf time values := by
  rw [versionsOf, versionsOf, List.map_map]
  exact List.map_congr_left fun v _ => if_pos rfl

/-- No version in a chain that a transaction does not own has its number. -/
theorem CellOwned.stamp_ne (h : CellOwned last (x :: others) table column row under chain)
    (ho : ∀ y ∈ others, y.id ≠ x.id) (hid : last < x.id) (hx : x.images table column row = []) :
    ∀ v ∈ chain, v.stamp ≠ x.id := by
  intro v hv
  rcases h.release hx with ⟨hs, -⟩ | ⟨y, settled, values, hy⟩
  · exact Nat.ne_of_lt (Nat.lt_of_le_of_lt (hs v hv) hid)
  · rw [hy.chain_eq] at hv
    rcases List.mem_append.mp hv with hv | hv
    · exact Nat.ne_of_lt (Nat.lt_of_le_of_lt (hy.settled_le v hv) hid)
    · obtain ⟨-, -, rfl⟩ := List.mem_map.mp hv
      exact ho y hy.mem

/-- **Writes that are committed leave the column of the row settled.** -/
theorem CellOwned.settle (h : CellOwned last (x :: others) table column row under chain)
    (ho : ∀ y ∈ others, y.id ≠ x.id) (hid : last < x.id) (ht : last < time) :
    CellOwned time others table column row under (chain.map (Overlay.restamp x.id time)) := by
  by_cases hx : x.images table column row = []
  · rw [map_restamp_of_ne (h.stamp_ne ho hid hx)]
    exact (h.release hx).mono (Nat.le_of_lt ht)
  · obtain ⟨settled, values, hheld⟩ := h.held ho hx
    refine Or.inl ⟨?_, fun z hz => hheld.others z (List.mem_cons_of_mem _ hz) (ho z hz)⟩
    rw [hheld.chain_eq, List.map_append, map_restamp_versionsOf]
    intro v hv
    rcases List.mem_append.mp hv with hv | hv
    · obtain ⟨w, hw, rfl⟩ := List.mem_map.mp hv
      have hle := hheld.settled_le w hw
      rw [Overlay.restamp, if_neg (Nat.ne_of_lt (Nat.lt_of_le_of_lt hle hid))]
      exact Nat.le_trans hle (Nat.le_of_lt ht)
    · obtain ⟨-, -, rfl⟩ := List.mem_map.mp hv
      exact Nat.le_refl _

end Cell
end ColumnStore
