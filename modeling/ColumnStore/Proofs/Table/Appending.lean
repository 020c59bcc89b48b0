/-
# Rows at the end of a table

Rows that are added come behind the old ones, with one stamp (`append_ok`).  What becomes of that
depends on the rows and on the columns without their updates (`append_congr`), so it does not matter
whether they come from the memory of their transaction or from the log (`appendRows_congr`).
-/

import ColumnStore.Proofs.Table.Shape
import ColumnStore.Proofs.Vector.Rows

namespace ColumnStore

/-- Vectors that hold rows, column by column, in the slots of a selection. -/
structure HoldRows (vectors : List ValueVector) (slots : Selection) (data : List Row) : Prop where
  length_eq : slots.length = data.length
  lists : ∀ (j : Nat) (v : ValueVector), vectors[j]? = some v → v.Lists slots (columnOf data j)

namespace Table

/-- What adding rows does to a table. -/
structure Adds (t t' : Table) (stamp : Stamp) (data : List Row) : Prop where
  sound : t'.Sound
  name_eq : t'.name = t.name
  definitions_eq : t'.definitions = t.definitions
  policy_eq : t'.policy = t.policy
  dropped_eq : t'.dropped = t.dropped
  versions_eq : t'.versions = t.versions.append data.length stamp
  chain_eq : ∀ i r, t'.chain i r = t.chain i r
  columns : List.Forall₂ (fun _ _ => True) t.columns t'.columns
  under_old : ∀ source i r, r < t.rows → t'.under source i r = t.under source i r
  under_new : ∀ source i k x, i < t.columns.length → (columnOf data i)[k]? = some x →
    t'.under source i (t.rows + k) = .ok x

theorem size_append (v : RowVersions) (n : Nat) (stamp : Stamp) :
    (v.append n stamp).size = v.size + n := by
  simp [RowVersions.append, RowVersions.size]

theorem Adds.rows_eq {t t' : Table} {stamp : Stamp} {data : List Row} (h : Adds t t' stamp data) :
    t'.rows = t.rows + data.length := by
  rw [rows, h.versions_eq, size_append, rows]

theorem Adds.stamps_old {t t' : Table} {stamp : Stamp} {data : List Row} (h : Adds t t' stamp data)
    {r : Nat} (hr : r < t.rows) : t'.stamps? r = t.stamps? r := by
  rw [stamps?, h.versions_eq, stamps?]
  exact Array.getElem?_append_left hr

theorem Adds.stamps_new {t t' : Table} {stamp : Stamp} {data : List Row} (h : Adds t t' stamp data)
    {r : Nat} (hr : t.rows ≤ r) :
    t'.stamps? r = if r < t.rows + data.length then some { inserted := stamp } else none := by
  rw [stamps?, h.versions_eq, RowVersions.append,
    Array.getElem?_append_right (by exact hr), Array.getElem?_replicate]
  have hsize : t.versions.rows.size = t.rows := rfl
  by_cases hlt : r < t.rows + data.length
  · rw [if_pos hlt, if_pos (by omega)]
  · rw [if_neg hlt, if_neg (by omega)]

theorem lists_tail {v : ValueVector} {vs : List ValueVector} {slots : Selection}
    {values : Nat → List Scalar}
    (hl : ∀ (j : Nat) (w : ValueVector), (v :: vs)[j]? = some w → w.Lists slots (values j)) :
    ∀ (j : Nat) (w : ValueVector), vs[j]? = some w → w.Lists slots (values (j + 1)) :=
  fun j w hw => hl (j + 1) w (by simpa using hw)

/-- **What becomes of columns** to which rows are added: those in front of the first one that refuses
go on with them, and those behind it stay. -/
theorem appendColumns_cases {slots : Selection} {columns columns' : List Column}
    {vectors : List ValueVector} {r : Except StorageError Unit}
    (hok : appendColumns slots columns vectors = (r, columns')) :
    List.Forall₂ (fun c c' => c' = c ∨ ∃ v ∈ vectors, ∃ r', c.append v slots = (r', c') ∧
      (r' = .ok () ∨ r' = r)) columns columns' := by
  have hstay : ∀ {P : Column → Column → Prop} (cs : List Column),
      List.Forall₂ (fun c c' => c' = c ∨ P c c') cs cs := fun cs =>
    List.forall₂_same.mpr fun c _ => Or.inl rfl
  induction columns generalizing vectors columns' r with
  | nil =>
    unfold appendColumns at hok
    exact (Prod.mk.inj hok).2 ▸ .nil
  | cons c rest ih =>
    cases vectors with
    | nil =>
      unfold appendColumns at hok
      exact (Prod.mk.inj hok).2 ▸ hstay _
    | cons v more =>
      unfold appendColumns at hok
      rcases ha : c.append v slots with ⟨e | ⟨⟨⟩⟩, d⟩ <;> rw [ha] at hok
      · obtain ⟨rfl, rfl⟩ := Prod.mk.inj hok
        exact .cons (Or.inr ⟨v, List.mem_cons_self, _, ha, Or.inr rfl⟩) (hstay rest)
      · rcases hr : appendColumns slots rest more with ⟨r', rest'⟩
        rw [hr] at hok
        obtain ⟨rfl, rfl⟩ := Prod.mk.inj hok
        refine .cons (Or.inr ⟨v, List.mem_cons_self, _, ha, Or.inl rfl⟩) ((ih hr).imp ?_)
        rintro c c' (hsame | ⟨w, hw, hadded⟩)
        · exact Or.inl hsame
        · exact Or.inr ⟨w, List.mem_cons_of_mem _ hw, hadded⟩

/-- **Rows are added column by column,** if none refuses them. -/
theorem appendColumns_all {slots : Selection} {columns columns' : List Column}
    {vectors : List ValueVector} (hlen : columns.length = vectors.length)
    (hok : appendColumns slots columns vectors = (.ok (), columns')) :
    List.Forall₂ (fun p c' => p.1.append p.2 slots = (.ok (), c')) (columns.zip vectors) columns' := by
  induction columns generalizing vectors columns' with
  | nil =>
    unfold appendColumns at hok
    exact (Prod.mk.inj hok).2 ▸ .nil
  | cons c rest ih =>
    cases vectors with
    | nil => cases hlen
    | cons v more =>
      unfold appendColumns at hok
      rcases ha : c.append v slots with ⟨e | ⟨⟨⟩⟩, d⟩ <;> rw [ha] at hok
      · cases hok
      · rcases hr : appendColumns slots rest more with ⟨r', rest'⟩
        rw [hr] at hok
        obtain ⟨rfl, rfl⟩ := Prod.mk.inj hok
        exact .cons ha (ih (Nat.succ.inj hlen) hr)
/-- A column to which rows were added grows by its values. -/
theorem appendColumns_ok {slots : Selection} {policy : SegmentPolicy} (hp : 0 < policy.capacity)
    {cs cs' : List Column} {vs : List ValueVector} (hlen : cs.length = vs.length)
    {values : Nat → List Scalar}
    (hcs : ∀ c ∈ cs, c.Sound ∧ c.policy = policy)
    (hl : ∀ (j : Nat) (v : ValueVector), vs[j]? = some v → v.Lists slots (values j))
    (hok : appendColumns slots cs vs = (.ok (), cs')) :
    cs'.length = cs.length ∧ ∀ (j : Nat) (c : Column), cs[j]? = some c →
      ∃ c', cs'[j]? = some c' ∧ Column.Grows c c' (values j) := by
  have hall := appendColumns_all hlen hok
  refine ⟨by rw [← hall.length_eq, List.length_zip, ← hlen, Nat.min_self], fun j c hc => ?_⟩
  obtain ⟨v, hv⟩ : ∃ v, vs[j]? = some v :=
    ⟨_, List.getElem?_eq_getElem (hlen ▸ (List.getElem?_eq_some_iff.mp hc).1)⟩
  obtain ⟨c', hc', happend⟩ :=
    exists_right_of_forall₂ hall (List.getElem?_zip_eq_some (z := (c, v)) |>.mpr ⟨hc, hv⟩)
  obtain ⟨hs, hpol⟩ := hcs c (List.mem_of_getElem? hc)
  exact ⟨c', hc', Column.append_ok hs (hpol ▸ hp) (hl j v hv) happend⟩

/-- **Rows are added behind the old ones,** which stay as they are. -/
theorem append_ok {t t' : Table} (h : t.Sound) {vectors : List ValueVector} {slots : Selection}
    {data : List Row} (hd : HoldRows vectors slots data) {stamp : Stamp} {range : Nat × Nat}
    (hok : t.append vectors slots stamp = (.ok range, t')) : Adds t t' stamp data := by
  unfold append at hok
  split at hok
  · cases hok
  rename_i hlen
  have hlen : vectors.length = t.definitions.length := not_not.mp hlen
  cases hc : checkTypes t.types vectors with
  | error e => rw [hc] at hok; cases hok
  | ok u =>
    rw [hc] at hok
    rcases ha : appendColumns slots t.columns vectors with ⟨e | ⟨⟨⟩⟩, cs'⟩ <;> rw [ha] at hok
    · cases hok
    obtain ⟨hlen', hgrows⟩ := appendColumns_ok h.capacity
      (by rw [length_columns h, hlen])
      (fun c hc => by
        obtain ⟨i, hi⟩ := List.mem_iff_getElem?.mp hc
        obtain ⟨d, -, -, hd⟩ := holds_of_some h hi
        exact ⟨hd.sound, hd.policy_eq⟩) hd.lists ha
    obtain ⟨-, rfl⟩ := Prod.mk.inj hok
    have hnone : ∀ i : Nat, t.columns[i]? = none → cs'[i]? = none := by
      intro i hi
      rw [List.getElem?_eq_none_iff] at hi ⊢
      omega
    refine ⟨⟨?_, h.capacity⟩, rfl, rfl, rfl, rfl, by rw [hd.length_eq], fun i r => ?_, ?_,
      fun source i r hr => ?_, fun source i k x hi hk => ?_⟩
    · rw [List.forall₂_iff_get]
      have hlen'' := length_columns h
      refine ⟨by simp only; omega, fun i hi hi' => ?_⟩
      simp only at hi'
      obtain ⟨d, hd', -, hh⟩ := holds_of_some h (List.getElem?_eq_getElem (by omega : i < t.columns.length))
      obtain ⟨c', hc', hg⟩ := hgrows i _ (List.getElem?_eq_getElem (by omega : i < t.columns.length))
      rw [List.getElem?_eq_getElem hi'] at hc'
      rw [List.getElem?_eq_getElem hi] at hd'
      rw [List.get_eq_getElem, List.get_eq_getElem]
      obtain rfl := Option.some.inj hc'
      obtain rfl := Option.some.inj hd'
      refine ⟨hg.sound, hg.type_eq.trans hh.type_eq, hg.policy_eq.trans hh.policy_eq, ?_⟩
      rw [hg.rows_eq, hh.rows_eq, length_columnOf, rows, rows, size_append, hd.length_eq]
    · cases hi : t.columns[i]? with
      | none => rw [chain_of_none hi, chain_of_none (hnone i hi)]
      | some c =>
        obtain ⟨c', hc', hg⟩ := hgrows i c hi
        rw [chain_of_some hi, chain_of_some hc', hg.chain_eq]
    · rw [List.forall₂_iff_get]
      exact ⟨hlen'.symm, fun _ _ _ => trivial⟩
    · cases hi : t.columns[i]? with
      | none =>
        rw [under, under, column_of_none hi, column_of_none (hnone i hi)]
      | some c =>
        obtain ⟨c', hc', hg⟩ := hgrows i c hi
        obtain ⟨d, -, -, hh⟩ := holds_of_some h hi
        rw [under_of_some hi, under_of_some hc', hg.under_old source r (hh.rows_eq ▸ hr)]
    · have hi := List.getElem?_eq_getElem hi
      obtain ⟨c', hc', hg⟩ := hgrows i _ hi
      obtain ⟨d, -, -, hh⟩ := holds_of_some h hi
      rw [under_of_some hc', ← hh.rows_eq]
      exact hg.under_new source k x hk

/-! ## The same rows from elsewhere -/

theorem appendColumns_congr {slots slots' : Selection} {cs cs' : List Column}
    (h : cs.map Column.bare = cs'.map Column.bare) {vs vs' : List ValueVector}
    (ht : vs.map ValueVector.type = vs'.map ValueVector.type) {values : Nat → List Scalar}
    (hl : ∀ (j : Nat) (v : ValueVector), vs[j]? = some v → v.Lists slots (values j))
    (hl' : ∀ (j : Nat) (v : ValueVector), vs'[j]? = some v → v.Lists slots' (values j)) :
    (appendColumns slots cs vs).1 = (appendColumns slots' cs' vs').1 ∧
      (appendColumns slots cs vs).2.map Column.bare =
        (appendColumns slots' cs' vs').2.map Column.bare := by
  induction cs generalizing cs' vs vs' values with
  | nil =>
    obtain rfl := List.map_eq_nil_iff.mp (h.symm.trans List.map_nil)
    simp [appendColumns]
  | cons c rest ih =>
    cases cs' with
    | nil => simp at h
    | cons c' rest' =>
      obtain ⟨hc, hrest⟩ := List.cons.inj h
      cases vs with
      | nil =>
        obtain rfl := List.map_eq_nil_iff.mp (ht.symm.trans List.map_nil)
        exact ⟨rfl, h⟩
      | cons v more =>
        cases vs' with
        | nil => simp at ht
        | cons v' more' =>
          obtain ⟨htype, htypes⟩ := List.cons.inj ht
          obtain ⟨hresult, hbare⟩ :=
            Column.append_congr hc htype (hl 0 v rfl) (hl' 0 v' rfl)
          unfold appendColumns
          generalize c.append v slots = x, c'.append v' slots' = y at hresult hbare ⊢
          rcases x with ⟨e | ⟨⟨⟩⟩, d⟩ <;> rcases y with ⟨e' | ⟨⟨⟩⟩, d'⟩ <;>
            simp only [Except.error.injEq, reduceCtorEq] at hresult hbare
          · exact ⟨congrArg Except.error hresult, by simp [hbare, hrest]⟩
          · obtain ⟨hr, hb⟩ := ih hrest htypes (lists_tail hl) (lists_tail hl')
            exact ⟨hr, by simp [hbare, hb]⟩

theorem checkTypes_congr {ts : List ColumnType} {vs vs' : List ValueVector}
    (h : vs.map ValueVector.type = vs'.map ValueVector.type) :
    checkTypes ts vs = checkTypes ts vs' := by
  induction ts generalizing vs vs' with
  | nil => cases vs <;> cases vs' <;> rfl
  | cons t ts ih =>
    cases vs with
    | nil =>
      obtain rfl := List.map_eq_nil_iff.mp (h.symm.trans List.map_nil)
      rfl
    | cons v more =>
      cases vs' with
      | nil => simp at h
      | cons v' more' =>
        obtain ⟨hv, hrest⟩ := List.cons.inj h
        simp only [checkTypes, hv, ih hrest]

/-- **The same rows are added in the same way to tables that differ in their updates.** -/
theorem append_congr {t t' : Table} (hd : t'.definitions = t.definitions)
    (hb : t'.columns.map Column.bare = t.columns.map Column.bare)
    {vectors vectors' : List ValueVector}
    (ht : vectors'.map ValueVector.type = vectors.map ValueVector.type)
    {slots slots' : Selection} {data : List Row} (hl : HoldRows vectors slots data)
    (hl' : HoldRows vectors' slots' data) {stamp : Stamp} {range : Nat × Nat} {u : Table}
    (hok : t.append vectors slots stamp = (.ok range, u)) :
    ∃ range' u', t'.append vectors' slots' stamp = (.ok range', u') ∧
      u'.columns.map Column.bare = u.columns.map Column.bare := by
  unfold append at hok ⊢
  have hlen : vectors'.length = vectors.length := by simpa using congrArg List.length ht
  rw [hd, hlen, types, hd, ← types, checkTypes_congr ht]
  split at hok
  · cases hok
  · rename_i hcount
    rw [if_neg hcount]
    cases hc : checkTypes t.types vectors with
    | error e => rw [hc] at hok; cases hok
    | ok _ =>
      rw [hc] at hok
      obtain ⟨hresult, hbare⟩ := appendColumns_congr hb ht hl'.lists hl.lists
      dsimp only at hok ⊢
      generalize appendColumns slots t.columns vectors = x,
        appendColumns slots' t'.columns vectors' = y at hresult hbare hok ⊢
      rcases x with ⟨e | ⟨⟨⟩⟩, cs⟩ <;> rcases y with ⟨e' | ⟨⟨⟩⟩, cs'⟩ <;>
        simp only [reduceCtorEq] at hresult hbare
      · cases hok
      · obtain ⟨-, rfl⟩ := Prod.mk.inj hok
        exact ⟨_, _, rfl, hbare⟩

theorem plain_of_sound {t : Table} (h : t.Sound) {type : ColumnType} (ht : type ∈ t.types) :
    type.isNested = false := by
  obtain ⟨d, hd, rfl⟩ := List.mem_map.mp ht
  obtain ⟨i, hi, rfl⟩ := List.mem_iff_getElem.mp hd
  have hh := (List.forall₂_iff_get.mp h.columns).2 i hi (by rw [length_columns h]; exact hi)
  rw [List.get_eq_getElem, List.get_eq_getElem] at hh
  rw [← hh.type_eq]
  exact hh.sound.plain

/-- **Rows are added from the log as they were added from memory.** -/
theorem appendRows_congr {t t' : Table} (h : t.Sound) (h' : t'.Sound)
    (hd : t'.definitions = t.definitions)
    (hb : t'.columns.map Column.bare = t.columns.map Column.bare) {vectors : List ValueVector}
    (ht : vectors.map ValueVector.type = t.types) {slots : Selection} {data : List Row}
    (hl : HoldRows vectors slots data) (hfit : ∀ row ∈ data, FitsTypes row t.types) {stamp : Stamp}
    {range : Nat × Nat} {u : Table} (hok : t.append vectors slots stamp = (.ok range, u)) :
    ∃ range' u', t'.appendRows data stamp = (.ok range', u') ∧ Adds t' u' stamp data ∧
      u'.columns.map Column.bare = u.columns.map Column.bare := by
  have htypes : t'.types = t.types := by rw [types, types, hd]
  obtain ⟨columns, hc, hhold⟩ := Chunk.ofRows_ok (fun type ht => plain_of_sound h ht) hfit
  have hl' : HoldRows columns (List.range data.length) data :=
    ⟨by simp, fun j v hv => Chunk.lists_of_holdRows hhold hv⟩
  have hct : columns.map ValueVector.type = t.types := by
    refine List.ext_getElem? fun j => ?_
    rw [List.getElem?_map]
    cases hv : columns[j]? with
    | none =>
      have := hhold.1
      rw [List.getElem?_eq_none_iff] at hv
      rw [Option.map_none, eq_comm, List.getElem?_eq_none_iff]
      omega
    | some v => exact (hhold.2 j v hv).2.1.symm
  obtain ⟨range', u', he, hbare⟩ := append_congr hd hb (hct.trans ht.symm) hl hl' hok
  refine ⟨range', u', ?_, append_ok h' hl' he, hbare⟩
  rw [appendRows, htypes, hc]
  exact he

end Table
end ColumnStore
