/-
# Tables of given columns

A table is made of columns that have one length; every snapshot sees all its rows.  A new table has
none.
-/

import ColumnStore.Proofs.Storage.Stored

namespace ColumnStore
namespace Table

/-- **The rows of columns of one length.** -/
theorem loadedVersions_ok {name : String} {columns : List Column} {expected : Nat}
    {versions : RowVersions} (hok : loadedVersions name columns expected = .ok versions) :
    columns.length = expected ∧ (∀ c ∈ columns, c.rows = versions.size) ∧
      (columns = [] → versions.size = 0) ∧
      versions = ⟨Array.replicate versions.size { inserted := 0 }⟩ := by
  unfold loadedVersions at hok
  split at hok
  · cases hok
  rename_i hlen
  dsimp only at hok
  generalize hrows : (columns.head?.map (·.rows)).getD 0 = rows at hok
  split at hok
  · cases hok
  rename_i hfind
  split at hok
  · rename_i v hv
    obtain rfl := Except.ok.inj hok
    unfold RowVersions.committed? RowVersions.append? at hv
    split at hv
    · obtain rfl := Option.some.inj hv
      have hsize : (RowVersions.append {} rows 0).size = rows := by
        simp [RowVersions.append, RowVersions.size]
      refine ⟨not_not.mp hlen, fun c hc => ?_, fun hnil => ?_, ?_⟩
      · rw [hsize]
        simpa using List.find?_eq_none.mp hfind c hc
      · rw [hsize, ← hrows, hnil]
        rfl
      · rw [hsize]
        simp [RowVersions.append]
    · cases hv
  · cases hok

/-- **Columns of one length** can be loaded, if there can be so many rows. -/
theorem loadedVersions_eq (name : String) {columns : List Column} {expected rows : Nat}
    (hlen : columns.length = expected) (hrows : ∀ c ∈ columns, c.rows = rows)
    (hshort : RowVersions.stampBytes * rows ≤ Bytes.longest) :
    ∃ versions, loadedVersions name columns expected = .ok versions ∧ versions.size ≤ rows := by
  generalize hhead : (columns.head?.map (·.rows)).getD 0 = head
  have hle : head ≤ rows := by
    rw [← hhead]
    cases columns with
    | nil => exact Nat.zero_le _
    | cons c rest => exact Nat.le_of_eq (hrows c List.mem_cons_self)
  have hfind : columns.find? (·.rows ≠ head) = none := by
    refine List.find?_eq_none.mpr fun c hc => ?_
    cases columns with
    | nil => exact absurd hc List.not_mem_nil
    | cons c' rest =>
      have heq : c.rows = head := by
        rw [hrows c hc, ← hhead]
        exact (hrows c' List.mem_cons_self).symm
      simp only [heq, ne_eq, not_true_eq_false, decide_false, Bool.false_eq_true, not_false_eq_true]
  have hcommitted : RowVersions.committed? head = some (RowVersions.append {} head 0) := by
    rw [RowVersions.committed?, RowVersions.append?, if_pos]
    refine Nat.le_trans (Nat.mul_le_mul_left _ ?_) hshort
    exact Nat.le_trans (Nat.le_of_eq (Nat.zero_add _)) hle
  refine ⟨RowVersions.append {} head 0, ?_, ?_⟩
  · rw [loadedVersions, if_neg (not_not.mpr hlen)]
    dsimp only
    rw [hhead, hfind]
    dsimp only
    rw [hcommitted]
  · simpa [RowVersions.append, RowVersions.size] using hle

/-- **What a table of columns is.** -/
theorem ofColumns_ok {name : String} {definitions : List ColumnDefinition} {policy : SegmentPolicy}
    {columns : List Column} {t : Table}
    (hok : ofColumns name definitions policy columns = .ok t) :
    definitions ≠ [] ∧ ∃ versions, loadedVersions name columns definitions.length = .ok versions ∧
      t = { name, definitions, policy, columns, versions } := by
  unfold ofColumns at hok
  split at hok
  · cases hok
  · rename_i hempty
    obtain ⟨versions, hv, ht⟩ := bind_eq_ok.mp hok
    exact ⟨fun h => hempty (by rw [h]; rfl), versions, hv, (Except.ok.inj ht).symm⟩

/-- **A table of sound columns of the defined types is sound.** -/
theorem sound_of_columns {name : String} {definitions : List ColumnDefinition}
    {policy : SegmentPolicy} (hp : 0 < policy.capacity) {columns : List Column}
    {versions : RowVersions} (hrows : ∀ c ∈ columns, c.rows = versions.size)
    (hcolumns : List.Forall₂ (fun d c => c.Sound ∧ c.type = d.type ∧ c.policy = policy)
      definitions columns) :
    Sound { name, definitions, policy, columns, versions } := by
  refine ⟨?_, hp⟩
  rw [List.forall₂_iff_get] at hcolumns ⊢
  refine ⟨hcolumns.1, fun i hi hi' => ?_⟩
  obtain ⟨hs, htype, hpolicy⟩ := hcolumns.2 i hi hi'
  exact ⟨hs, htype, hpolicy, hrows _ (List.get_mem _ _)⟩

end Table

/-- A new table has columns. -/
theorem Table.definitions_ne_nil {name : String} {definitions : List ColumnDefinition}
    {policy : SegmentPolicy} {t : Table} (hok : Table.new name definitions policy = .ok t) :
    t.definitions ≠ [] := by
  obtain ⟨columns, -, ht⟩ := bind_eq_ok.mp hok
  obtain ⟨hne, versions, -, rfl⟩ := ofColumns_ok ht
  exact hne

/-- **A new table** is sound and has no rows. -/
theorem Table.new_ok {name : String} {definitions : List ColumnDefinition} {policy : SegmentPolicy}
    (hp : 0 < policy.capacity) {t : Table} (hok : Table.new name definitions policy = .ok t) :
    t.Sound ∧ t.name = name ∧ t.definitions = definitions ∧ t.policy = policy ∧
      t.dropped = false ∧ t.rows = 0 ∧ t.stored = [] := by
  obtain ⟨columns, hc, ht⟩ := bind_eq_ok.mp hok
  obtain ⟨hne, versions, hv, rfl⟩ := ofColumns_ok ht
  obtain ⟨hlen, hrows, -, -⟩ := loadedVersions_ok hv
  have hall := forall₂_of_mapM_ok hc
  have hempty : ∀ c ∈ columns, c.rows = 0 ∧ c.stored = [] := by
    intro c hm
    obtain ⟨i, hi, rfl⟩ := List.mem_iff_getElem.mp hm
    have hcol := (List.forall₂_iff_get.mp hall).2 i (hlen ▸ hi) hi
    obtain ⟨heq, -⟩ := Column.fresh_ok hcol
    exact ⟨congrArg Column.rows heq, congrArg Column.stored heq⟩
  refine ⟨sound_of_columns hp hrows (hall.imp fun d c hdc => ?_), rfl, rfl, rfl, rfl, ?_, ?_⟩
  · obtain ⟨rfl, hs⟩ := Column.fresh_ok hdc
    exact ⟨hs, rfl, rfl⟩
  · cases columns with
    | nil => exact absurd (List.length_eq_zero_iff.mp hlen.symm) hne
    | cons c rest =>
      have hfirst := hrows c List.mem_cons_self
      rw [(hempty c List.mem_cons_self).1] at hfirst
      exact hfirst.symm
  · exact List.flatMap_eq_nil_iff.mpr fun c hm => (hempty c hm).2

end ColumnStore
