/-
# Tables whose columns can be read

Each column of a table has its rows, and all of them can be read (`Table.Held`).  Whatever is done to
the table keeps it so, however it ends.

Deletions, updates, and what becomes of them leave the rows where they are: the stamps change, and
columns are written over (`Table.Retouched`).  What such changes of columns keep is so told once for all
of these operations.

An attempt may end half-way: rows that are too long for one column are in the columns before it, and
not in the table.  So a column may have more rows than its table.
-/

import ColumnStore.Proofs.Column.Refinement
import ColumnStore.Proofs.Table.Appending
import ColumnStore.Proofs.Table.Copying
import ColumnStore.Proofs.Vector.Rows

namespace ColumnStore

/-! ## Columns -/

namespace Column

variable {source source' : Source} {type : ColumnType} {policy : SegmentPolicy} {n : Nat}
  {c c' : Column}

/-- What a reader gets of a column that can be read is of its type. -/
theorem Legible.value (h : c.Legible source) {row : Nat} (hrow : row < c.rows) (s : Snapshot) :
    ∃ x, c.value source row s = .ok x ∧ x.fits c.type = true := by
  unfold Column.value readOver
  cases hseen : seen? (c.chain row) s with
  | none => exact h.under row hrow
  | some x =>
    obtain ⟨v, hv, rfl⟩ := Option.map_eq_some_iff.mp hseen
    exact ⟨_, rfl, h.chain row v (List.mem_reverse.mp (List.mem_of_find?_eq_some hv))⟩

/-- **A column that can be read** is a list of versioned cells. -/
theorem Legible.refines (h : c.Legible source) : ∃ cells, Refines source c cells := by
  generalize hcells : (List.range c.rows).map (fun row =>
    (⟨((c.under source row).toOption).getD .null, c.chain row⟩ : Cell)) = cells
  have hcell : ∀ row cell, cells[row]? = some cell →
      c.under source row = .ok cell.value ∧ c.chain row = cell.versions ∧
        cell.value.fits c.type = true := by
    rintro row cell hcell
    rw [← hcells, List.getElem?_map] at hcell
    obtain ⟨r, hr, rfl⟩ := Option.map_eq_some_iff.mp hcell
    obtain ⟨hlt, rfl⟩ := List.getElem?_eq_some_iff.mp hr
    rw [List.getElem_range]
    rw [List.length_range] at hlt
    obtain ⟨x, hx, hfits⟩ := h.under row hlt
    rw [hx]
    exact ⟨rfl, rfl, hfits⟩
  refine ⟨cells, h.sound, by rw [← hcells, List.length_map, List.length_range],
    fun row cell hc => (hcell row cell hc).1, fun row cell hc => (hcell row cell hc).2.1,
    fun cell hc => ?_⟩
  obtain ⟨row, hrow⟩ := List.mem_iff_getElem?.mp hc
  obtain ⟨-, hchain, hfits⟩ := hcell row cell hrow
  exact ⟨hfits, fun v hv => h.chain row v (hchain ▸ hv)⟩

/-- Rows of a column are written over, and writes to them are committed or taken back. -/
inductive Retouched (c : Column) : Column → Prop
  | refl : Retouched c c
  | update {d e : Column} {row : Nat} {v : Version} (h : Retouched c d)
      (hok : d.update row v = .ok e) : Retouched c e
  | commitUpdate {d e : Column} {row : Nat} {transaction time : Stamp} (h : Retouched c d)
      (hok : d.commitUpdate row transaction time = .ok e) : Retouched c e
  | revertUpdate {d e : Column} {row : Nat} {transaction : Stamp} {before : Option Scalar}
      (h : Retouched c d) (hok : d.revertUpdate row transaction = .ok (before, e)) : Retouched c e

/-- A column of a table that can be read, and has as many rows as the table at least. -/
structure Carried (source : Source) (type : ColumnType) (policy : SegmentPolicy) (n : Nat)
    (c : Column) : Prop where
  legible : c.Legible source
  cut : ∃ old base, c.Cut old base
  type_eq : c.type = type
  policy_eq : c.policy = policy
  rows_le : n ≤ c.rows

/-- **A column is carried along** when one of its rows is changed. -/
theorem Carried.change (h : c.Carried source type policy n) {x : Change} (hx : x.row? ≠ none) :
    (c.change x).2.Carried source type policy n := by
  obtain ⟨cells, hrefines⟩ := h.legible.refines
  obtain ⟨old, base, hcut⟩ := h.cut
  obtain ⟨c', cells', hc, hrefines', hk⟩ : ∃ c' cells', (c.change x).2 = c' ∧
      Refines source c' cells' ∧ Keeps c c' := by
    cases x with
    | append given rows => exact absurd rfl hx
    | update row v =>
      obtain ⟨r, c', cells', hc, -, hrest⟩ := hrefines.update row v
      exact ⟨c', cells', by rw [hc], hrest⟩
    | commitUpdate row transaction time =>
      obtain ⟨r, c', cells', hc, -, hrest⟩ := hrefines.commitUpdate row transaction time
      exact ⟨c', cells', by rw [hc], hrest⟩
    | revertUpdate row transaction =>
      obtain ⟨r, c', cells', hc, -, hrest⟩ := hrefines.revertUpdate row transaction
      exact ⟨c', cells', by rw [hc], hrest⟩
  rw [hc]
  exact ⟨hrefines'.legible, ⟨old, base, hcut.keeps hk⟩, hk.type_eq.trans h.type_eq,
    hk.policy_eq.trans h.policy_eq, hk.rows_eq ▸ h.rows_le⟩

/-- **A column is carried along** when its rows are written over. -/
theorem Carried.retouched (h : c.Carried source type policy n) (hr : c.Retouched c') :
    c'.Carried source type policy n := by
  induction hr with
  | refl => exact h
  | @update d e row v _ hok ih =>
    have hchange := ih.change (x := .update row v) (by rintro ⟨⟩)
    rwa [Column.change, hok] at hchange
  | @commitUpdate d e row transaction time _ hok ih =>
    have hchange := ih.change (x := .commitUpdate row transaction time) (by rintro ⟨⟩)
    rwa [Column.change, hok] at hchange
  | @revertUpdate d e row transaction before _ hok ih =>
    have hchange := ih.change (x := .revertUpdate row transaction) (by rintro ⟨⟩)
    rwa [Column.change, hok] at hchange

/-- **A column is carried along** when rows are added, and has them all if none was refused. -/
theorem Carried.append (h : c.Carried source type policy n) (hp : 0 < policy.capacity)
    {given : ValueVector} (hgiven : given.Typed) {rows : Selection} {r : Except StorageError Unit}
    (hok : c.append given rows = (r, c')) (hcalm : r ≠ .error (.vector .outOfRange)) :
    c'.Carried source type policy n ∧
      (r = .ok () → c'.Carried source type policy (n + rows.length)) := by
  obtain ⟨cells, hrefines⟩ := h.legible.refines
  obtain ⟨old, base, hcut⟩ := h.cut
  have hchange := hrefines.append hcut (h.policy_eq ▸ hp) hgiven rows
  rw [Column.change, hok] at hchange
  obtain hpanic | ⟨r', d, cells', hc, hstep, hrefines', hcut', htype, hpolicy⟩ := hchange
  · cases r with
    | ok u => cases hpanic
    | error e => exact absurd (congrArg Except.error (Except.error.inj hpanic)) hcalm
  obtain ⟨rfl, rfl⟩ := Prod.mk.inj hc
  have hcarried : ∀ m, m ≤ c'.rows → c'.Carried source type policy m := fun m hm =>
    ⟨hrefines'.legible, ⟨old, base, hcut'⟩, htype.trans h.type_eq, hpolicy.trans h.policy_eq, hm⟩
  have hle := h.rows_le
  rw [hrefines.rows_eq] at hle
  have hmore : ∀ values : List Scalar, cells' = cells ++ values.map (⟨·, []⟩) →
      c'.rows = cells.length + values.length := by
    rintro values rfl
    rw [hrefines'.rows_eq, List.length_append, List.length_map]
  cases r with
  | ok u =>
    cases hstep with
    | append _ hlists =>
      have hrows := hmore _ rfl
      have hlength := congrArg List.length hlists
      rw [List.length_map, List.length_map] at hlength
      exact ⟨hcarried n (by omega), fun _ => hcarried _ (by omega)⟩
  | error e =>
    refine ⟨hcarried n ?_, by rintro ⟨⟩⟩
    generalize hanswer : (Except.error e : Except StorageError Unit).map (fun _ => none) = answer
      at hstep
    cases hstep with
    | append => cases hanswer
    | cutShort =>
      have hrows := hmore _ rfl
      omega
    | otherType => exact hrefines'.rows_eq ▸ hle
    | noRow hrow => cases hrow

/-- **Other files on the disk** make no difference to a column whose segments stay. -/
theorem Carried.congr (h : c.Carried source type policy n)
    (hloads : c.Safe fun v => source'.load v = source.load v) :
    c.Carried source' type policy n := by
  refine ⟨⟨h.legible.sound, fun row hrow => ?_, h.legible.chain⟩, h.cut, h.type_eq, h.policy_eq,
    h.rows_le⟩
  rw [under_congr hloads]
  exact h.legible.under row hrow

/-- **A copy can be read** wherever it is. -/
theorem CopiedTo.legible {s : Snapshot} {rows : List Nat} {fresh : Column}
    (h : CopiedTo source s rows c fresh) (hc : c.Legible source) (hrows : ∀ r ∈ rows, r < c.rows) :
    fresh.Legible source' := by
  refine ⟨h.sound, fun k hk => ?_, fun k v hv => ?_⟩
  · have hrow := List.getElem?_eq_getElem (h.rows_eq ▸ hk)
    rw [h.under_eq source' k _ hrow, h.type_eq]
    exact hc.value (hrows _ (List.mem_of_getElem? hrow)) s
  · rw [h.chain_eq] at hv
    cases hv

end Column

/-! ## Tables -/

namespace Table

/-- A table that can be changed and copied: each column has its rows and can be read. -/
structure Held (source : Source) (t : Table) : Prop where
  nonempty : t.definitions ≠ []
  capacity : 0 < t.policy.capacity
  columns : List.Forall₂ (fun definition c => c.Carried source definition.type t.policy t.rows)
    t.definitions t.columns

variable {source source' : Source} {t t' : Table}

theorem Held.column (h : t.Held source) {i : Nat} {c : Column} (hc : t.columns[i]? = some c) :
    ∃ definition, t.definitions[i]? = some definition ∧
      c.Carried source definition.type t.policy t.rows := exists_left_of_forall₂ h.columns hc

theorem Held.plain (h : t.Held source) : ∀ type ∈ t.types, type.isNested = false := by
  intro type htype
  obtain ⟨definition, hd, rfl⟩ := List.mem_map.mp htype
  obtain ⟨c, -, hc⟩ := exists_mem_right_of_forall₂ h.columns hd
  exact hc.type_eq ▸ hc.legible.sound.plain

/-- **Columns of one length** make a table. -/
theorem held_of_columns (hne : t.definitions ≠ []) (hp : 0 < t.policy.capacity)
    (hcolumns : List.Forall₂ (fun definition c => c.Carried source definition.type t.policy c.rows)
      t.definitions t.columns) (hrows : ∀ c ∈ t.columns, c.rows = t.rows) : t.Held source := by
  refine ⟨hne, hp, forall₂_iff_getElem?.mpr ⟨hcolumns.length_eq, fun i definition c hd hc => ?_⟩⟩
  exact hrows c (List.mem_of_getElem? hc) ▸ (forall₂_iff_getElem?.mp hcolumns).2 i definition c hd hc

/-- Other files on the disk make no difference to a table whose segments stay. -/
theorem Held.congr (h : t.Held source) (hloads : t.Safe fun v => source'.load v = source.load v) :
    t.Held source' := by
  refine ⟨h.nonempty, h.capacity, forall₂_iff_getElem?.mpr ⟨h.columns.length_eq, fun i definition c hd hc => ?_⟩⟩
  have hcarried := (forall₂_iff_getElem?.mp h.columns).2 i definition c hd hc
  exact hcarried.congr (hloads.column (List.mem_of_getElem? hc))

/-! ## Rows at the end -/

/-- **Rows are added to a table,** or to some of its columns. -/
theorem Held.append (h : t.Held source) {vectors : List ValueVector} {slots : Selection} {stamp : Stamp}
    {r : Except StorageError (Nat × Nat)} (hvectors : ∀ v ∈ vectors, v.Typed)
    (hok : t.append vectors slots stamp = (r, t')) (hcalm : r ≠ .error (.vector .outOfRange)) :
    t'.Held source := by
  unfold Table.append at hok
  split at hok
  · obtain ⟨-, rfl⟩ := Prod.mk.inj hok
    exact h
  rename_i hlength
  split at hok
  · obtain ⟨-, rfl⟩ := Prod.mk.inj hok
    exact h
  split at hok
  · rename_i e columns happend
    obtain ⟨rfl, rfl⟩ := Prod.mk.inj hok
    have hcases := appendColumns_cases happend
    refine ⟨h.nonempty, h.capacity, forall₂_iff_getElem?.mpr
      ⟨h.columns.length_eq.trans hcases.length_eq, fun i definition c' hd hc' => ?_⟩⟩
    obtain ⟨c, hc, hadded⟩ := exists_left_of_forall₂ hcases hc'
    have hcarried := (forall₂_iff_getElem?.mp h.columns).2 i definition c hd hc
    rcases hadded with rfl | ⟨v, hv, r, hok, hr⟩
    · exact hcarried
    · refine (hcarried.append h.capacity (hvectors v hv) hok ?_).1
      rintro rfl
      rcases hr with hr | hr
      · cases hr
      · exact hcalm (congrArg _ (Except.error.inj hr.symm))
  · rename_i columns happend
    obtain ⟨rfl, rfl⟩ := Prod.mk.inj hok
    have hlen : t.columns.length = vectors.length :=
      ((not_not.mp hlength).trans h.columns.length_eq).symm
    have hall := appendColumns_all hlen happend
    have hrows : rows { t with columns, versions := t.versions.append slots.length stamp } =
        t.rows + slots.length := size_append ..
    refine ⟨h.nonempty, h.capacity, forall₂_iff_getElem?.mpr ⟨?_, fun i definition c' hd hc' => ?_⟩⟩
    · rw [h.columns.length_eq, ← hall.length_eq, List.length_zip, ← hlen, Nat.min_self]
    · obtain ⟨⟨c, v⟩, hp, hok⟩ := exists_left_of_forall₂ hall hc'
      obtain ⟨hc, hv⟩ := List.getElem?_zip_eq_some.mp hp
      have hcarried := (forall₂_iff_getElem?.mp h.columns).2 i definition c hd hc
      rw [hrows]
      exact (hcarried.append h.capacity (hvectors v (List.mem_of_getElem? hv)) hok
        (by rintro ⟨⟩)).2 rfl

/-- Rows are added as vectors, if they are rows for the table. -/
theorem Held.appendRows_cases (h : t.Held source) (rows : List Row) (stamp : Stamp) :
    (t.appendRows rows stamp).2 = t ∨ ∃ vectors slots, (∀ v ∈ vectors, v.Typed) ∧
      t.appendRows rows stamp = t.append vectors slots stamp := by
  unfold Table.appendRows
  split
  · exact Or.inl rfl
  · rename_i chunk hchunk
    obtain ⟨columns, hmade, -, hvectors⟩ :=
      Chunk.ofRows_ok h.plain (Chunk.fits_of_ofRows h.plain hchunk)
    obtain rfl := Except.ok.inj (hmade.symm.trans hchunk)
    refine Or.inr ⟨_, _, fun v hv => ?_, rfl⟩
    obtain ⟨j, hj⟩ := List.mem_iff_getElem?.mp hv
    exact (hvectors j v hj).1.typed

/-! ## Rows that stay where they are -/

/-- A table whose rows stay: their stamps change, and columns are written over. -/
structure Retouched (t t' : Table) : Prop where
  definitions_eq : t'.definitions = t.definitions
  policy_eq : t'.policy = t.policy
  rows_eq : t'.rows = t.rows
  columns : List.Forall₂ Column.Retouched t.columns t'.columns

theorem Retouched.refl (t : Table) : t.Retouched t :=
  ⟨rfl, rfl, rfl, List.forall₂_same.mpr fun _ _ => .refl⟩

/-- Other stamps for the same rows. -/
theorem Retouched.withVersions (h : t.Retouched t') {v : RowVersions} (hv : v.size = t'.rows) :
    t.Retouched { t' with versions := v } :=
  ⟨h.definitions_eq, h.policy_eq, Eq.trans hv h.rows_eq, h.columns⟩

/-- Another column in place of one. -/
theorem retouched_withColumn {i : Nat} {c c' : Column} (hc : t.columns[i]? = some c)
    (hc' : c.Retouched c') : t.Retouched (t.withColumn i c') := by
  refine ⟨rfl, rfl, rfl, forall₂_iff_getElem?.mpr ⟨List.length_set.symm, fun j u w hu hw => ?_⟩⟩
  change (t.columns.set i c')[j]? = some w at hw
  by_cases hj : i = j
  · subst hj
    rw [List.getElem?_set_self (List.getElem?_eq_some_iff.mp hc).1] at hw
    obtain rfl := Option.some.inj (hu.symm.trans hc)
    exact Option.some.inj hw ▸ hc'
  · rw [List.getElem?_set_ne hj] at hw
    obtain rfl := Option.some.inj (hu.symm.trans hw)
    exact .refl

/-- **A table whose rows stay** can still be read. -/
theorem Held.retouched (h : t.Held source) (hr : t.Retouched t') : t'.Held source := by
  refine ⟨hr.definitions_eq ▸ h.nonempty, hr.policy_eq ▸ h.capacity, forall₂_iff_getElem?.mpr ⟨?_, ?_⟩⟩
  · rw [hr.definitions_eq, h.columns.length_eq, hr.columns.length_eq]
  · intro i definition c' hd hc'
    obtain ⟨c, hc, htouched⟩ := exists_left_of_forall₂ hr.columns hc'
    rw [hr.definitions_eq] at hd
    rw [hr.policy_eq, hr.rows_eq]
    exact ((forall₂_iff_getElem?.mp h.columns).2 i definition c hd hc).retouched htouched

/-! ## Stamps -/

theorem Retouched.changeVersions (h : t.Retouched t') {f : RowVersions → Nat → Option RowVersions}
    (hf : ∀ v row v', f v row = some v' → v'.size = v.size) (rows : List Nat) :
    t.Retouched (t'.changeVersions f rows).2 := by
  induction rows generalizing t' with
  | nil => exact h
  | cons row rest ih =>
    rw [Table.changeVersions]
    split
    · exact h
    · rename_i versions hok
      obtain ⟨-, -, hpresent⟩ := bind_eq_ok.mp hok
      unfold present at hpresent
      split at hpresent
      · rename_i v hv
        obtain rfl := Except.ok.inj hpresent
        exact ih (h.withVersions (hf _ _ _ hv))
      · cases hpresent

theorem size_mark? (time : Stamp) (v : RowVersions) (row : Nat) (v' : RowVersions)
    (h : v.mark? row time = some v') : v'.size = v.size := by
  obtain ⟨r, -, rfl⟩ := Option.map_eq_some_iff.mp h
  exact RowVersions.size_setDeleted ..

theorem size_commitDelete? (transaction time : Stamp) (v : RowVersions) (row : Nat)
    (v' : RowVersions) (h : v.commitDelete? row transaction time = some v') : v'.size = v.size := by
  obtain ⟨r, -, rfl⟩ := Option.map_eq_some_iff.mp h
  split
  · exact RowVersions.size_setDeleted ..
  · rfl

theorem Retouched.revertDelete (h : t.Retouched t') (transaction : Stamp) (rows : List Nat) :
    t.Retouched (t'.revertDelete transaction rows).2 := by
  induction rows generalizing t' with
  | nil => exact h
  | cons row rest ih =>
    rw [Table.revertDelete]
    split
    · rename_i versions hok
      obtain ⟨r, -, hr⟩ := Option.map_eq_some_iff.mp hok
      refine ih (h.withVersions ?_)
      split at hr
      · obtain ⟨-, rfl⟩ := Prod.mk.inj hr
        exact RowVersions.size_setDeleted ..
      · cases hr
    · exact h

theorem size_foldl_setDeleted (stamp : Stamp) (rows : List Nat) (v : RowVersions) :
    (rows.foldl (fun v row => v.setDeleted row stamp) v).size = v.size := by
  induction rows generalizing v with
  | nil => rfl
  | cons row rest ih => exact (ih _).trans (RowVersions.size_setDeleted ..)

theorem retouched_delete {rows targets : List Nat} {s : Snapshot}
    (hok : t.delete rows s = .ok (targets, t')) : t.Retouched t' := by
  obtain ⟨targets', -, heq⟩ := bind_eq_ok.mp hok
  obtain ⟨rfl, rfl⟩ := Prod.mk.inj (Except.ok.inj heq)
  exact (Retouched.refl t).withVersions (size_foldl_setDeleted ..)

/-! ## Updates -/

theorem retouched_changeColumn {α : Type} {f : Column → α → Except StorageError Column}
    {b : Column} (hf : ∀ c a c', f c a = .ok c' → b.Retouched c → b.Retouched c') (as : List α)
    {c : Column} (h : b.Retouched c) : b.Retouched (changeColumn f c as).2 := by
  induction as generalizing c with
  | nil => exact h
  | cons a rest ih =>
    rw [changeColumn]
    split
    · exact h
    · rename_i c' hok
      exact ih (hf c a c' hok h)

theorem retouched_updateRows {s : Snapshot} (targets : List (Nat × Scalar)) {b c : Column}
    (h : b.Retouched c) {r : Except StorageError (List Scalar)} {c' : Column}
    (hok : (updateRows source s c targets).result = .ok (r, c')) : b.Retouched c' := by
  induction targets generalizing c r with
  | nil =>
    obtain ⟨rfl, rfl⟩ := Prod.mk.inj (Except.ok.inj hok)
    exact h
  | cons target rest ih =>
    obtain ⟨row, value⟩ := target
    rw [updateRows] at hok
    simp only [Reading.result_bind, Reading.result_attempt, ok_bind] at hok
    split at hok
    · obtain ⟨rfl, rfl⟩ := Prod.mk.inj (Except.ok.inj hok)
      exact h
    · split at hok
      · obtain ⟨rfl, rfl⟩ := Prod.mk.inj (Except.ok.inj hok)
        exact h
      · rename_i c₁ hc₁
        rw [Reading.result_bind] at hok
        obtain ⟨⟨r₁, c₂⟩, hrest, heq⟩ := bind_eq_ok.mp hok
        obtain ⟨-, rfl⟩ := Prod.mk.inj (Except.ok.inj heq)
        exact ih (h.update hc₁) hrest

theorem retouched_update {i : Nat} {rows : List Nat} {values : List Scalar} {s : Snapshot}
    {r : Except TransactionError (List Nat × List Scalar)}
    (hok : (t.update source i rows values s).result = .ok (r, t')) : t.Retouched t' := by
  unfold Table.update at hok
  split at hok
  · obtain ⟨-, rfl⟩ := Prod.mk.inj (Except.ok.inj hok)
    exact .refl t
  · rename_i c hc
    split at hok
    · obtain ⟨-, rfl⟩ := Prod.mk.inj (Except.ok.inj hok)
      exact .refl t
    · split at hok
      · obtain ⟨-, rfl⟩ := Prod.mk.inj (Except.ok.inj hok)
        exact .refl t
      · rename_i targets htargets
        rw [Reading.result_bind] at hok
        obtain ⟨⟨r₁, c₁⟩, hrows, heq⟩ := bind_eq_ok.mp hok
        obtain ⟨-, rfl⟩ := Prod.mk.inj (Except.ok.inj heq)
        exact retouched_withColumn (column_eq_ok.mp hc) (retouched_updateRows targets .refl hrows)

theorem retouched_commitUpdate (t : Table) (i : Nat) (rows : List Nat) (transaction time : Stamp) :
    t.Retouched (t.commitUpdate i rows transaction time).2 := by
  unfold Table.commitUpdate
  split
  · exact .refl t
  · rename_i c hc
    exact retouched_withColumn (column_eq_ok.mp hc)
      (retouched_changeColumn (fun c row c' hok h => h.commitUpdate hok) rows .refl)

theorem retouched_updateCommitted (t : Table) (i : Nat) (rows : List Nat) (values : List Scalar)
    (time : Stamp) : t.Retouched (t.updateCommitted i rows values time).2 := by
  unfold Table.updateCommitted
  split
  · exact .refl t
  · rename_i c hc
    split
    · exact .refl t
    · refine retouched_withColumn (column_eq_ok.mp hc)
        (retouched_changeColumn (fun c x c' hok h => ?_) _ .refl)
      obtain ⟨-, -, hok⟩ := bind_eq_ok.mp hok
      exact h.update hok

theorem retouched_revertUpdate {i row : Nat} {s : Snapshot} {before : Scalar}
    {r : Except TransactionError Unit}
    (hok : (t.revertUpdate source i row s before).result = .ok (r, t')) : t.Retouched t' := by
  unfold Table.revertUpdate at hok
  split at hok
  · obtain ⟨-, rfl⟩ := Prod.mk.inj (Except.ok.inj hok)
    exact .refl t
  · rename_i c hc
    split at hok
    · obtain ⟨-, rfl⟩ := Prod.mk.inj (Except.ok.inj hok)
      exact .refl t
    · obtain ⟨-, rfl⟩ := Prod.mk.inj (Except.ok.inj hok)
      exact .refl t
    · rename_i value c' hc'
      have hkept : t.Retouched (t.withColumn i c') :=
        retouched_withColumn hc (Column.Retouched.refl.revertUpdate hc')
      simp only [Reading.result_bind, Reading.result_attempt, ok_bind] at hok
      split at hok
      · obtain ⟨-, rfl⟩ := Prod.mk.inj (Except.ok.inj hok)
        exact hkept
      · split at hok
        · obtain ⟨-, rfl⟩ := Prod.mk.inj (Except.ok.inj hok)
          exact hkept
        · obtain ⟨-, rfl⟩ := Prod.mk.inj (Except.ok.inj hok)
          exact hkept

end Table
end ColumnStore
