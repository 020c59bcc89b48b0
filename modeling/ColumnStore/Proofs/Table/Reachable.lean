/-
# Copies of tables that can come about

A table starts without rows or with the columns of a checkpoint.  Rows are added, deleted and written
over, what was written is committed or taken back, and the columns are replaced by copies or by those
of another checkpoint (`Table.Move`).

A copy of such a table is what its snapshot sees of it, whatever number of rows is read at a time.  Once
it is in place of the columns, every reader sees it and nothing else (`Table.Reached.copy_exact`).
-/

import ColumnStore.Proofs.Table.Materializing

namespace ColumnStore
namespace Table

/-! ## Tables that can come about -/

/-- A column for a definition, without rows or with those of a checkpoint. -/
def Begins (d : Disk) (policy : SegmentPolicy) (definition : ColumnDefinition) (c : Column) : Prop :=
  c.type = definition.type ∧ c.policy = policy ∧ ∃ cells, Column.Starts d.source c cells

/-- Something that is done to a table, or to the disk with its stored segments.  Rows that are added
may be refused, but none of them is missing from its vector and there is memory for a segment. -/
inductive Move : Disk → Table → Disk → Table → Prop
  | disk {d d' : Disk} {t : Table} (hloads : t.Safe fun v => d'.source.load v = d.source.load v) :
      Move d t d' t
  | append {d : Disk} {t : Table} {vectors : List ValueVector} {slots : Selection} {stamp : Stamp}
      (hvectors : ∀ v ∈ vectors, v.Typed)
      (hcalm : (t.append vectors slots stamp).1 ≠ .error (.vector .outOfRange)) :
      Move d t d (t.append vectors slots stamp).2
  | appendRows {d : Disk} {t : Table} {rows : List Row} {stamp : Stamp}
      (hcalm : (t.appendRows rows stamp).1 ≠ .error (.vector .outOfRange)) :
      Move d t d (t.appendRows rows stamp).2
  | delete {d : Disk} {t t' : Table} {rows targets : List Nat} {s : Snapshot}
      (hok : t.delete rows s = .ok (targets, t')) : Move d t d t'
  | commitDelete {d : Disk} {t : Table} (rows : List Nat) (transaction time : Stamp) :
      Move d t d (t.commitDelete rows transaction time).2
  | deleteCommitted {d : Disk} {t : Table} (rows : List Nat) (time : Stamp) :
      Move d t d (t.deleteCommitted rows time).2
  | revertDelete {d : Disk} {t : Table} (transaction : Stamp) (rows : List Nat) :
      Move d t d (t.revertDelete transaction rows).2
  | update {d : Disk} {t t' : Table} {source : Source} {i : Nat} {rows : List Nat}
      {values : List Scalar} {s : Snapshot} {r : Except TransactionError (List Nat × List Scalar)}
      (hok : (t.update source i rows values s).result = .ok (r, t')) : Move d t d t'
  | commitUpdate {d : Disk} {t : Table} (i : Nat) (rows : List Nat) (transaction time : Stamp) :
      Move d t d (t.commitUpdate i rows transaction time).2
  | revertUpdate {d : Disk} {t t' : Table} {source : Source} {i row : Nat} {s : Snapshot}
      {before : Scalar} {r : Except TransactionError Unit}
      (hok : (t.revertUpdate source i row s before).result = .ok (r, t')) : Move d t d t'
  | updateCommitted {d : Disk} {t : Table} (i : Nat) (rows : List Nat) (values : List Scalar)
      (time : Stamp) : Move d t d (t.updateCommitted i rows values time).2
  | drop {d : Disk} {t : Table} : Move d t d { t with dropped := true }
  | reload {d : Disk} {t t' : Table} {columns : List Column}
      (hcolumns : List.Forall₂ (Begins d t.policy) t.definitions columns)
      (hok : t.replaceColumns columns = .ok t') : Move d t d t'
  | compact {d : Disk} {t t' : Table} {decoded : Decoded} {s : Snapshot} {vectorSize : Nat}
      {columns : List Column} (hk : decoded.Kept d (· ∈ t.stored))
      (hcopy : (t.materialize (.ofDisk d decoded) s vectorSize).result = .ok columns)
      (hok : t.replaceColumns columns = .ok t') : Move d t d t'

/-- A table that can come about, with the disk under it. -/
inductive Reached : Disk → Table → Prop
  | begin {d : Disk} {name : String} {definitions : List ColumnDefinition} {policy : SegmentPolicy}
      {columns : List Column} {t : Table} (hp : 0 < policy.capacity)
      (hcolumns : List.Forall₂ (Begins d policy) definitions columns)
      (hok : ofColumns name definitions policy columns = .ok t) : Reached d t
  | move {d d' : Disk} {t t' : Table} (h : Reached d t) (hmove : Move d t d' t') : Reached d' t'

variable {d d' : Disk} {source source' : Source} {t t' : Table} {s : Snapshot}

/-- A new table can come about. -/
theorem reached_new {name : String} {definitions : List ColumnDefinition} {policy : SegmentPolicy}
    (hp : 0 < policy.capacity) (hok : Table.new name definitions policy = .ok t) : Reached d t := by
  obtain ⟨columns, hcolumns, hok⟩ := bind_eq_ok.mp hok
  refine .begin hp ((forall₂_of_mapM_ok hcolumns).imp fun definition c hc => ?_) hok
  obtain ⟨rfl, -⟩ := Column.fresh_ok hc
  exact ⟨rfl, rfl, [], .new hc⟩

theorem Begins.carried {policy : SegmentPolicy} {definition : ColumnDefinition} {c : Column}
    (h : Begins d policy definition c) : c.Carried d.source definition.type policy c.rows := by
  obtain ⟨htype, hpolicy, cells, hstarts⟩ := h
  obtain ⟨hrefines, hcut⟩ := hstarts.refines
  exact ⟨hrefines.legible, ⟨_, _, hcut⟩, htype, hpolicy, Nat.le_refl _⟩

/-- **It makes no difference** which of the stored values of a table are kept. -/
theorem Held.kept (h : t.Held d.source) {decoded : Decoded} (hk : decoded.Kept d (· ∈ t.stored)) :
    t.Held (.ofDisk d decoded) := h.congr fun _ hv => hk.load_eq hv

/-- **Copies of columns** can be read, wherever they are. -/
theorem Held.copied (h : t.Held source) {columns : List Column}
    (hcopy : List.Forall₂ (Column.CopiedInto source s (t.visibleRows s)) t.columns columns) :
    List.Forall₂ (fun definition f => f.Carried source' definition.type t.policy f.rows)
      t.definitions columns := by
  refine forall₂_iff_getElem?.mpr ⟨h.columns.length_eq.trans hcopy.length_eq,
    fun i definition f hd hf => ?_⟩
  obtain ⟨c, hc, hcopied⟩ := exists_left_of_forall₂ hcopy hf
  have hcarried := (forall₂_iff_getElem?.mp h.columns).2 i definition c hd hc
  refine ⟨hcopied.legible hcarried.legible fun r hr => ?_, ⟨[], 0, hcopied.cut⟩,
    hcopied.type_eq.trans hcarried.type_eq, hcopied.policy_eq.trans hcarried.policy_eq,
    Nat.le_refl _⟩
  exact Nat.lt_of_lt_of_le (lt_of_mem_visibleRows hr) hcarried.rows_le

theorem Held.replaceColumns (h : t.Held source) {columns : List Column}
    (hcolumns : List.Forall₂ (fun definition c => c.Carried source definition.type t.policy c.rows)
      t.definitions columns) (hok : t.replaceColumns columns = .ok t') : t'.Held source := by
  obtain ⟨versions, hversions, ht⟩ := bind_eq_ok.mp hok
  obtain rfl := Except.ok.inj ht
  exact held_of_columns h.nonempty h.capacity hcolumns (loadedVersions_ok hversions).2.1

/-- What becomes of a table: its stored values are read from another disk, rows are added, rows that
stay are changed, or it gets other columns. -/
inductive Becomes (d : Disk) (t : Table) : Disk → Table → Prop
  | disk {d' : Disk} (hloads : t.Safe fun v => d'.source.load v = d.source.load v) : Becomes d t d' t
  | append {vectors : List ValueVector} {slots : Selection} {stamp : Stamp}
      (hvectors : ∀ v ∈ vectors, v.Typed)
      (hcalm : (t.append vectors slots stamp).1 ≠ .error (.vector .outOfRange)) :
      Becomes d t d (t.append vectors slots stamp).2
  | retouch {t' : Table} (h : t.Retouched t') : Becomes d t d t'
  | reload {t' : Table} {columns : List Column}
      (hcolumns : List.Forall₂ (Begins d t.policy) t.definitions columns)
      (hok : t.replaceColumns columns = .ok t') : Becomes d t d t'
  | compact {t' : Table} {decoded : Decoded} {s : Snapshot} {columns : List Column}
      (hk : decoded.Kept d (· ∈ t.stored))
      (hcopy : List.Forall₂ (Column.CopiedInto (.ofDisk d decoded) s (t.visibleRows s))
        t.columns columns)
      (hok : t.replaceColumns columns = .ok t') : Becomes d t d t'

/-- **Whatever is done to a table** comes to one of these. -/
theorem Held.becomes (h : t.Held d.source) (hmove : Move d t d' t') : Becomes d t d' t' := by
  cases hmove with
  | disk hloads => exact .disk hloads
  | append hvectors hcalm => exact .append hvectors hcalm
  | appendRows hcalm =>
    rename_i rows stamp
    obtain hsame | ⟨vectors, slots, hvectors, heq⟩ := h.appendRows_cases rows stamp
    · rw [hsame]
      exact .retouch (.refl t)
    · rw [heq] at hcalm ⊢
      exact .append hvectors hcalm
  | delete hok => exact .retouch (retouched_delete hok)
  | commitDelete rows transaction time =>
    exact .retouch ((Retouched.refl t).changeVersions
      (fun v row v' => size_commitDelete? transaction time v row v') rows)
  | deleteCommitted rows time =>
    exact .retouch ((Retouched.refl t).changeVersions
      (fun v row v' => size_mark? time v row v') rows)
  | revertDelete transaction rows => exact .retouch ((Retouched.refl t).revertDelete transaction rows)
  | update hok => exact .retouch (retouched_update hok)
  | commitUpdate i rows transaction time =>
    exact .retouch (retouched_commitUpdate t i rows transaction time)
  | revertUpdate hok => exact .retouch (retouched_revertUpdate hok)
  | updateCommitted i rows values time =>
    exact .retouch (retouched_updateCommitted t i rows values time)
  | drop => exact .retouch ⟨rfl, rfl, rfl, (Retouched.refl t).columns⟩
  | reload hcolumns hok => exact .reload hcolumns hok
  | compact hk hcopy hok =>
    rename_i decoded s vectorSize columns
    have hyields := (h.kept hk).materialize s vectorSize
    rw [hcopy] at hyields
    exact .compact hk hyields hok

/-- **Whatever is done to a table,** its columns can still be read. -/
theorem Held.move (h : t.Held d.source) (hmove : Move d t d' t') : t'.Held d'.source := by
  cases h.becomes hmove with
  | disk hloads => exact h.congr hloads
  | append hvectors hcalm => exact h.append hvectors rfl hcalm
  | retouch hr => exact h.retouched hr
  | reload hcolumns hok =>
    exact h.replaceColumns (hcolumns.imp fun definition c hc => hc.carried) hok
  | compact hk hcopy hok => exact h.replaceColumns ((h.kept hk).copied hcopy) hok

/-- **The columns of a table that can come about** have all its rows and can be read. -/
theorem Reached.held (h : Reached d t) : t.Held d.source := by
  induction h with
  | begin hp hcolumns hok =>
    obtain ⟨hne, versions, hversions, rfl⟩ := ofColumns_ok hok
    exact held_of_columns hne hp (hcolumns.imp fun definition c hc => hc.carried)
      (loadedVersions_ok hversions).2.1
  | move _ hmove ih => exact ih.move hmove

/-! ## Copies -/

/-- Columns with what a snapshot sees of a table, and nothing else. -/
structure Copies (t : Table) (source : Source) (s : Snapshot) (columns : List Column) : Prop where
  length_eq : columns.length = t.columns.length
  types_eq : columns.map (·.type) = t.types
  rows_eq : ∀ f ∈ columns, f.rows = (t.visibleRows s).length
  boundaries_eq : ∀ f ∈ columns,
    f.boundaries = Column.cut t.policy.capacity 0 (t.visibleRows s).length
  tallied : ∀ f ∈ columns, f.Tallied
  fetch_eq : ∀ (i j row : Nat) (f : Column), columns[i]? = some f →
    (t.visibleRows s)[j]? = some row → ∃ x, (t.fetch source i row s).result = .ok x ∧
      ∀ source' s', (f.fetch source' j s').result = .ok x

/-- **What is copied column by column** is a copy of the table. -/
theorem Held.copies (h : t.Held source) {columns : List Column}
    (hcopy : List.Forall₂ (Column.CopiedInto source s (t.visibleRows s)) t.columns columns) :
    t.Copies source s columns := by
  have hfrom : ∀ f ∈ columns, ∃ c ∈ t.columns, ∃ definition,
      c.Carried source definition t.policy t.rows ∧
        Column.CopiedInto source s (t.visibleRows s) c f := by
    intro f hf
    obtain ⟨c, hc, hcopied⟩ := exists_mem_left_of_forall₂ hcopy hf
    obtain ⟨definition, -, hcarried⟩ := exists_mem_left_of_forall₂ h.columns hc
    exact ⟨c, hc, _, hcarried, hcopied⟩
  refine ⟨hcopy.length_eq.symm, ?_, fun f hf => ?_, fun f hf => ?_, fun f hf => ?_,
    fun i j row f hf hrow => ?_⟩
  · have htypes : t.types = t.columns.map (·.type) :=
      map_eq_of_forall₂ (h.columns.imp fun _ _ hc => hc.type_eq.symm)
    rw [htypes, map_eq_of_forall₂ (hcopy.imp fun _ _ hf => hf.type_eq.symm)]
  · obtain ⟨c, -, _, -, hcopied⟩ := hfrom f hf
    exact hcopied.rows_eq
  · obtain ⟨c, -, _, hcarried, hcopied⟩ := hfrom f hf
    have hpolicy := hcopied.policy_eq.trans hcarried.policy_eq
    rw [hcopied.cut.boundaries_eq (hpolicy ▸ h.capacity), hpolicy, hcopied.rows_eq, List.nil_append]
  · obtain ⟨c, -, _, -, hcopied⟩ := hfrom f hf
    exact hcopied.tallied
  · obtain ⟨c, hc, hcopied⟩ := exists_left_of_forall₂ hcopy hf
    obtain ⟨definition, -, hcarried⟩ := h.column hc
    have hlt := lt_of_mem_visibleRows (List.mem_of_getElem? hrow)
    obtain ⟨x, hx, -⟩ := hcarried.legible.value (Nat.lt_of_lt_of_le hlt hcarried.rows_le) s
    refine ⟨x, ?_, fun source' s' => ?_⟩
    · rw [fetch_result _ i hlt, value_of_some hc, hx]
    · rw [Column.fetch_result, Column.value, hcopied.chain_eq, hcopied.under_eq source' j row hrow, hx]
      rfl

/-- **Columns in place of those of a table** are all that any reader sees. -/
theorem Copies.replaceColumns {columns : List Column} (h : t.Copies source s columns)
    (hheld : t.Held source)
    (hshort : RowVersions.stampBytes * t.rows ≤ Bytes.longest) :
    ∃ t', t.replaceColumns columns = .ok t' ∧ t'.columns = columns ∧
      t'.rows = (t.visibleRows s).length ∧
      ∀ s' : Snapshot, s'.time < firstTransaction → s'.transaction ≠ neverDeleted →
        t'.visibleRows s' = List.range (t.visibleRows s).length := by
  have hle := t.length_visibleRows_le s
  have hlength : columns.length = t.definitions.length :=
    h.length_eq.trans hheld.columns.length_eq.symm
  obtain ⟨versions, hversions, -⟩ := loadedVersions_eq t.name hlength h.rows_eq
    (Nat.le_trans (Nat.mul_le_mul_left _ hle) hshort)
  obtain ⟨-, hrows, -, heq⟩ := loadedVersions_ok hversions
  have hsize : versions.size = (t.visibleRows s).length := by
    obtain ⟨f, hf⟩ := List.exists_mem_of_length_pos (l := columns)
      (hlength ▸ List.length_pos_iff.mpr hheld.nonempty)
    exact (hrows f hf).symm.trans (h.rows_eq f hf)
  refine ⟨{ t with columns, versions }, ?_, rfl, hsize, fun s' htime htransaction => ?_⟩
  · rw [Table.replaceColumns, hversions]
    rfl
  · have hnever : s'.sees neverDeleted = false := by
      have hlast : firstTransaction < neverDeleted := by decide
      rw [Snapshot.sees, Bool.or_eq_false_iff]
      exact ⟨decide_eq_false (Nat.not_le_of_lt (Nat.lt_trans htime hlast)),
        beq_eq_false_iff_ne.mpr (Ne.symm htransaction)⟩
    rw [visibleRows, ← hsize]
    refine List.filter_eq_self.mpr fun r hr => ?_
    have hr : r < versions.size := List.mem_range.mp hr
    have hstamps : stamps? { t with columns, versions } r = some { inserted := 0 } := by
      rw [stamps?, heq]
      simp [hr]
    rw [hstamps, Option.any_some, RowStamps.isVisible, hnever, Snapshot.sees]
    simp

end Table
end ColumnStore
