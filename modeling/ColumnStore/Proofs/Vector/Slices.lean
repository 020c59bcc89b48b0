/-
# Sound chunks

A chunk is sound when its columns are and every row is in a slot that all of them have.  A chunk of
rows is sound (`Chunk.HoldRows.sound`), and stays so when rows (`Chunk.Sound.slice`) or columns
(`Chunk.Sound.project?`) are picked out of it.

The same `NULL`s can be written with marks and without.  A vector that is marked anew with the same
ones has the same values (`ValueVector.Remarked`).
-/

import ColumnStore.Proofs.Attempts
import ColumnStore.Proofs.Vector.Rows

namespace ColumnStore

/-- Lists that are picked out of a list by position. -/
theorem getElem?_of_mapM {α : Type} {l picked : List α} {order : List Nat}
    (h : order.mapM (l[·]?) = some picked) :
    picked.length = order.length ∧ ∀ k i : Nat, order[k]? = some i → picked[k]? = l[i]? := by
  have hboth := forall₂_of_mapM h
  refine ⟨hboth.length_eq.symm, fun k i hi => ?_⟩
  obtain ⟨hk, rfl⟩ := List.getElem?_eq_some_iff.mp hi
  have hk' : k < picked.length := hboth.length_eq ▸ hk
  rw [List.getElem?_eq_getElem hk']
  exact (hboth.get hk hk').symm

theorem mem_of_mapM {α : Type} {l picked : List α} {order : List Nat}
    (h : order.mapM (l[·]?) = some picked) : ∀ x ∈ picked, x ∈ l := by
  intro x hx
  obtain ⟨k, hk⟩ := List.mem_iff_getElem?.mp hx
  obtain ⟨hlen, hget⟩ := getElem?_of_mapM h
  have hlt := hlen ▸ (List.getElem?_eq_some_iff.mp hk).1
  rw [hget k _ (List.getElem?_eq_getElem hlt)] at hk
  exact List.mem_of_getElem? hk

/-! ## Marks -/

namespace Validity

/-- Masks that say the same of every slot, whether they keep marks or not. -/
structure Agrees (m m' : Validity) : Prop where
  sound : m'.Sound
  capacity_eq : m'.capacity = m.capacity
  get?_eq : ∀ i < m.capacity, m'.get? i = m.get? i

variable {m a b : Validity}

theorem Agrees.refl (h : m.Sound) : m.Agrees m := ⟨h, rfl, fun _ _ => rfl⟩

/-- **Marks are kept** as soon as a slot was marked, even when it is valid again. -/
theorem agrees_of_setNull? (h : m.Sound) {i : Nat} (hi : i < m.capacity)
    (hvalid : m.get? i = some true) (hnull : m.setNull? i = some a) (hset : a.setValid? i = some b) :
    m.Agrees b := by
  obtain ⟨a', hnull', hsa, hca, -, hothers⟩ := setNull?_of_lt h hi
  obtain rfl : a' = a := Option.some.inj (hnull'.symm.trans hnull)
  obtain ⟨b', hset', hsb, hcb, hself, hothers'⟩ := setValid?_of_lt hsa (hca.symm ▸ hi)
  obtain rfl : b' = b := Option.some.inj (hset'.symm.trans hset)
  refine ⟨hsb, hcb.trans hca, fun j hj => ?_⟩
  by_cases heq : j = i
  · rw [heq, hself, hvalid]
  · rw [hothers' j heq (hca.symm ▸ hj), hothers j heq hj]

end Validity

namespace ValueVector

/-- A vector and the same one with other marks that say the same. -/
def Remarked (v v' : ValueVector) : Prop := ∃ marks, v.validity.Agrees marks ∧ v' = v.withValidity marks

variable {v v' : ValueVector}

/-- **Marks that say the same** leave the values as they are. -/
theorem Remarked.get?_eq (h : v.Remarked v') (hv : v.Sound) :
    v'.Sound ∧ v'.type = v.type ∧ v'.capacity = v.capacity ∧
      ∀ i < v.capacity, v'.get? i = v.get? i := by
  obtain ⟨marks, hagrees, rfl⟩ := h
  cases v with
  | list => exact absurd hv not_false
  | flat t validity slots =>
    obtain ⟨ht, -, hcapacity, hslots⟩ := hv
    refine ⟨⟨ht, hagrees.sound, hagrees.capacity_eq.trans hcapacity, hslots⟩, rfl, rfl,
      fun i hi => ?_⟩
    have hmark : marks.get? i = validity.get? i := hagrees.get?_eq i (hcapacity.symm ▸ hi)
    simp only [get?, withValidity, ValueVector.validity, hmark]
    rfl

end ValueVector

/-! ## Chunks -/

namespace Chunk

/-- A chunk with every row in a slot of its columns. -/
structure Sound (c : Chunk) : Prop where
  columns : ∀ v ∈ c.columns, v.Sound
  slots : ∀ row < c.cardinality, ∃ i, c.slot? row = some i ∧ ∀ v ∈ c.columns, i < v.capacity

variable {c c' : Chunk}

/-- **Every row of a sound chunk has a value of its type** in every column. -/
theorem Sound.get?_ok (h : c.Sound) {row column : Nat} (hrow : row < c.cardinality)
    {v : ValueVector} (hv : c.columns[column]? = some v) :
    ∃ i x, c.slot? row = some i ∧ i < v.capacity ∧ v.get? i = some x ∧ c.get? column row = some x := by
  obtain ⟨i, hslot, hi⟩ := h.slots row hrow
  have hmem := List.mem_of_getElem? hv
  obtain ⟨x, hx, -⟩ := ValueVector.get?_of_lt (h.columns v hmem) (hi v hmem)
  refine ⟨i, x, hslot, hi v hmem, hx, ?_⟩
  rw [Chunk.get?, hv, Option.bind_eq_bind, Option.bind_some, hslot, Option.bind_eq_bind,
    Option.bind_some, hx]

/-- **A chunk of rows is sound.** -/
theorem HoldRows.sound {columns : List ValueVector} {types : List ColumnType} {capacity : Nat}
    {rows : List Row} (h : HoldRows columns types capacity rows) (hroom : rows.length ≤ capacity) :
    Sound ⟨columns, rows.length, capacity, none⟩ where
  columns v hv := by
    obtain ⟨j, hj⟩ := List.mem_iff_getElem?.mp hv
    exact (h.2 j v hj).1
  slots row hrow := by
    refine ⟨row, rfl, fun v hv => ?_⟩
    obtain ⟨j, hj⟩ := List.mem_iff_getElem?.mp hv
    obtain ⟨-, -, hc, -⟩ := h.2 j v hj
    exact hc ▸ Nat.lt_of_lt_of_le hrow hroom

/-- **Rows that are picked out of a sound chunk** make a sound chunk, whatever slots they were in. -/
theorem Sound.slice (h : c.Sound) {rows : Selection} (hok : c.slice rows = .ok c') : c'.Sound := by
  obtain ⟨_, hverify, hok⟩ := bind_eq_ok.mp hok
  have hlt := ValueVector.verify_eq_ok.mp hverify
  have hpick : ∀ (row : Nat) (hrow : row < rows.length), ∃ i, c.slot? rows[row] = some i ∧
      ∀ v ∈ c.columns, i < v.capacity := fun row hrow => h.slots _ (hlt _ (List.getElem_mem hrow))
  split at hok
  · rename_i hnone
    obtain rfl := Except.ok.inj hok
    refine ⟨h.columns, fun row hrow => ?_⟩
    obtain ⟨i, hi, hroom⟩ := hpick row hrow
    refine ⟨i, ?_, hroom⟩
    rw [← hi, slot?, slot?, hnone]
    exact List.getElem?_eq_getElem hrow
  · rename_i current hsome
    split at hok
    · rename_i picked hpicked
      obtain rfl := Except.ok.inj hok
      obtain ⟨hlen, hget⟩ := getElem?_of_mapM hpicked
      refine ⟨h.columns, fun row hrow => ?_⟩
      obtain ⟨i, hi, hroom⟩ := hpick row (hlen ▸ hrow)
      refine ⟨i, ?_, hroom⟩
      rw [← hi, slot?, slot?, hsome]
      exact hget row _ (List.getElem?_eq_getElem _)
    · cases hok

/-- Columns that are picked out of a chunk. -/
theorem eq_of_project? {order : List Nat} (h : c.project? order = some c') :
    ∃ picked, order.mapM (c.columns[·]?) = some picked ∧ c' = { c with columns := picked } := by
  obtain ⟨picked, hpicked, rfl⟩ := Option.map_eq_some_iff.mp h
  exact ⟨picked, hpicked, rfl⟩

/-- Columns that are picked out keep their types. -/
theorem types_project? {order : List Nat} (h : c.project? order = some c') :
    order.mapM (c.types[·]?) = some c'.types := by
  obtain ⟨picked, hpicked, rfl⟩ := eq_of_project? h
  clear h
  induction order generalizing picked with
  | nil =>
    obtain rfl : [] = picked := Option.some.inj hpicked
    rfl
  | cons i order ih =>
    rw [List.mapM_cons] at hpicked ⊢
    obtain ⟨v, hv, hpicked⟩ := Option.bind_eq_some_iff.mp hpicked
    obtain ⟨rest, hrest, hpicked⟩ := Option.bind_eq_some_iff.mp hpicked
    obtain rfl := Option.some.inj hpicked
    rw [ih rest hrest, types, List.getElem?_map, hv]
    rfl

/-- Columns that are picked out keep their values. -/
theorem get?_project? {order : List Nat} (h : c.project? order = some c') {k i : Nat}
    (hk : order[k]? = some i) (row : Nat) : c'.get? k row = c.get? i row := by
  obtain ⟨picked, hpicked, rfl⟩ := eq_of_project? h
  rw [get?, get?, (getElem?_of_mapM hpicked).2 k i hk]
  rfl

/-- **Columns that are picked out of a sound chunk** make a sound chunk. -/
theorem Sound.project? (h : c.Sound) {order : List Nat} (hok : c.project? order = some c') :
    c'.Sound := by
  obtain ⟨picked, hpicked, rfl⟩ := eq_of_project? hok
  have hmem := mem_of_mapM hpicked
  refine ⟨fun v hv => h.columns v (hmem v hv), fun row hrow => ?_⟩
  obtain ⟨i, hslot, hi⟩ := h.slots row hrow
  exact ⟨i, hslot, fun v hv => hi v (hmem v hv)⟩

variable {columns : List ValueVector}

/-- A column that is marked anew has the same values. -/
theorem Sound.column_of_remarked (h : c.Sound)
    (hmarked : List.Forall₂ ValueVector.Remarked c.columns columns) {k : Nat} {v' : ValueVector}
    (hv' : columns[k]? = some v') : ∃ v, c.columns[k]? = some v ∧ v'.Sound ∧ v'.type = v.type ∧
      v'.capacity = v.capacity ∧ ∀ i < v.capacity, v'.get? i = v.get? i := by
  obtain ⟨hk', rfl⟩ := List.getElem?_eq_some_iff.mp hv'
  have hk : k < c.columns.length := hmarked.length_eq ▸ hk'
  have hv := h.columns _ (List.getElem_mem hk)
  exact ⟨_, List.getElem?_eq_getElem hk, (hmarked.get hk hk').get?_eq hv⟩

/-- **Columns that are marked anew** with marks that say the same make a sound chunk, of the same
types. -/
theorem Sound.remark (h : c.Sound)
    (hmarked : List.Forall₂ ValueVector.Remarked c.columns columns) :
    Sound { c with columns } ∧ types { c with columns } = c.types := by
  refine ⟨⟨fun v' hv' => ?_, fun row hrow => ?_⟩, ?_⟩
  · obtain ⟨k, hk⟩ := List.mem_iff_getElem?.mp hv'
    obtain ⟨v, -, hsound, -⟩ := h.column_of_remarked hmarked hk
    exact hsound
  · obtain ⟨i, hslot, hi⟩ := h.slots row hrow
    refine ⟨i, hslot, fun v' hv' => ?_⟩
    obtain ⟨k, hk⟩ := List.mem_iff_getElem?.mp hv'
    obtain ⟨v, hv, -, -, hcapacity, -⟩ := h.column_of_remarked hmarked hk
    exact hcapacity ▸ hi v (List.mem_of_getElem? hv)
  · refine List.ext_getElem? fun k => ?_
    rw [types, types, List.getElem?_map, List.getElem?_map]
    cases hk : columns[k]? with
    | none => rw [List.getElem?_eq_none (hmarked.length_eq ▸ List.getElem?_eq_none_iff.mp hk)]
    | some v' =>
      obtain ⟨v, hv, -, htype, -⟩ := h.column_of_remarked hmarked hk
      rw [hv, Option.map_some, Option.map_some, htype]

/-- **All values stay** when columns are marked anew. -/
theorem Sound.get?_remark (h : c.Sound)
    (hmarked : List.Forall₂ ValueVector.Remarked c.columns columns) {row : Nat}
    (hrow : row < c.cardinality) (column : Nat) :
    get? { c with columns } column row = c.get? column row := by
  obtain ⟨i, hslot, hi⟩ := h.slots row hrow
  have hslot' : slot? { c with columns } row = some i := hslot
  rw [get?, get?, hslot, hslot']
  cases hk : columns[column]? with
  | none => rw [List.getElem?_eq_none (hmarked.length_eq ▸ List.getElem?_eq_none_iff.mp hk)]
  | some v' =>
    obtain ⟨v, hv, -, -, -, hget⟩ := h.column_of_remarked hmarked hk
    rw [hv]
    exact hget i (hi v (List.mem_of_getElem? hv))

end Chunk
end ColumnStore
