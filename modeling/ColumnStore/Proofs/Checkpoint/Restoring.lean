/-
# What was written is loaded

A column that was written has its values in the blocks that its records name
(`Column.under_storedAt`), and a table that was written is loaded with these columns
(`Checkpoint.Copied.loadTable`).
-/

import ColumnStore.Proofs.Checkpoint.Adopting

namespace ColumnStore

/-! ## Columns -/

/-- **A segment that was written** is loaded from its blocks, up to values that are the same. -/
theorem Segment.Imaged.loaded {preferred : Scheme} {s : Segment} (h : s.Imaged preferred)
    (hf : preferred.Faithful) {f blocks : BlockFile} {d : Disk} (hw : f.Whole d)
    (hlong : (d.bytes f.file).length ≤ Bytes.longest) {r r' : SegmentRecord}
    (hr : Checkpoint.Records preferred (f, d) s r) (ha : r.Alike r')
    (hread : ∀ p, blocks.read d p = f.read d p) {t : ColumnType} (ht : t = s.type)
    (place : List Nat) : ∃ w, d.source.load ⟨blocks, r'.pointer, t, r'.count, place⟩ = .ok w ∧
      ∀ i < s.count, ∃ x y, (∀ source, s.under source i = .ok x) ∧ w.get? i = some y ∧
        y.same x = true := by
  obtain ⟨source, image, himage, hholds⟩ := hr.image
  obtain ⟨hok, -, -⟩ := BlockFile.Holds.read_ok hholds hw hlong
  have hblocks : blocks.read d r'.pointer = .ok image := by
    rw [hread, ha.pointer_eq]
    exact hok
  exact h.load hf himage ht (ha.count_eq.trans hr.count_eq) hblocks

namespace Column

variable {f blocks : BlockFile} {d : Disk} {c : Column} {rs rs' : List SegmentRecord}

theorem length_storedAt (c : Column) (blocks : BlockFile) (policy : SegmentPolicy)
    (place : List Nat) (records : List SegmentRecord) :
    (c.storedAt blocks policy place records).segments.length = records.length := List.length_mapIdx

/-- Records of the same places are alike. -/
theorem Places.alike (h : c.Places rs) (ha : List.Forall₂ SegmentRecord.Alike rs rs') :
    c.Places rs' := by
  refine forall₂_iff_getElem?.mpr ⟨h.length_eq.trans ha.length_eq, fun i s r' hs hr' => ?_⟩
  obtain ⟨r, hr, halike⟩ := exists_left_of_forall₂ ha hr'
  obtain ⟨hstart, hcount⟩ := (forall₂_iff_getElem?.mp h).2 i s r hs hr
  exact ⟨halike.start_eq.trans hstart, halike.count_eq.trans hcount⟩

/-- **Alike records name the same values,** whoever may write to the blocks. -/
theorem bare_storedAt (ha : List.Forall₂ SegmentRecord.Alike rs rs') (c : Column) (f : BlockFile)
    (policy : SegmentPolicy) (place : List Nat) :
    (c.storedAt { f with writable := false } policy place rs').bare =
      (c.storedAt f policy place rs).bare := by
  refine bare_eq_iff.mpr ⟨rfl, rfl, rfl, List.ext_getElem? fun i => ?_⟩
  simp only [storedAt, List.getElem?_map, List.getElem?_mapIdx]
  cases hr : rs[i]? with
  | none =>
    have hr' : rs'[i]? = none := by
      rw [List.getElem?_eq_none_iff, ← ha.length_eq, ← List.getElem?_eq_none_iff, hr]
    rw [hr']
    rfl
  | some r =>
    obtain ⟨r', hr', halike⟩ := exists_right_of_forall₂ ha hr
    rw [hr']
    simp only [Option.map_some]
    refine congrArg some (Segment.bare_eq_iff.mpr ⟨rfl, halike.start_eq, halike.count_eq,
      halike.count_eq, ?_⟩)
    simp only [SegmentRecord.toSegment, Segment.ofStored, SegmentData.bare, halike.count_eq,
      halike.pointer_eq]

/-- **A column that was written is read back,** up to values that are the same. -/
theorem under_storedAt (h : c.Sound) (hi : c.Imaged) (hf : c.policy.compression.Faithful)
    (hw : f.Whole d) (hlong : (d.bytes f.file).length ≤ Bytes.longest)
    (hr : List.Forall₂ (Checkpoint.Records c.policy.compression (f, d)) c.segments rs)
    (ha : List.Forall₂ SegmentRecord.Alike rs rs') (hread : ∀ p, blocks.read d p = f.read d p)
    (policy : SegmentPolicy) (place : List Nat) {row : Nat} (hrow : row < c.rows) :
    ∃ x y, (∀ source, c.under source row = .ok x) ∧
      (c.storedAt blocks policy place rs').under d.source row = .ok y ∧ y.same x = true := by
  obtain ⟨i, s, hl, hs, hlo, hhi⟩ := locate_of_lt h hrow
  obtain ⟨r, hir, hrecord⟩ := exists_right_of_forall₂ hr hs
  obtain ⟨r', hir', halike⟩ := exists_right_of_forall₂ ha hir
  have hstart : r'.start = s.start := halike.start_eq.trans hrecord.start_eq
  -- The row is found in the segment of its record.
  have hlocate : (c.storedAt blocks policy place rs').locate row =
      .ok (i, r'.toSegment blocks c.type (place ++ [i]), row - s.start) := by
    have hstops : List.Forall₂ (fun s s' : Segment => s'.stop = s.stop) c.segments
        (c.storedAt blocks policy place rs').segments := by
      refine forall₂_iff_getElem?.mpr ⟨?_, fun j t t' ht ht' => ?_⟩
      · rw [length_storedAt, ← ha.length_eq, hr.length_eq]
      · obtain ⟨q, hq, hqr⟩ := exists_right_of_forall₂ hr ht
        obtain ⟨q', hq', hqa⟩ := exists_right_of_forall₂ ha hq
        rw [storedAt, List.getElem?_mapIdx, hq', Option.map_some] at ht'
        obtain rfl := Option.some.inj ht'
        exact congrArg₂ (· + ·) (hqa.start_eq.trans hqr.start_eq) (hqa.count_eq.trans hqr.count_eq)
    have hindex : (c.storedAt blocks policy place rs').segmentIndex? row = some i := by
      have hc : c.segmentIndex? row = some i := by
        rw [locate] at hl
        split at hl
        · cases hl
        · rename_i j hj
          split at hl
          · cases hl
          · exact (Prod.mk.inj (Except.ok.inj hl)).1 ▸ hj
      rw [segmentIndex?] at hc ⊢
      rw [findIdx?_congr hstops]
      exact hc
    have hsegment : (c.storedAt blocks policy place rs').segments[i]? =
        some (r'.toSegment blocks c.type (place ++ [i])) := by
      rw [storedAt, List.getElem?_mapIdx, hir', Option.map_some]
    rw [locate, hindex]
    simp only [hsegment]
    rw [← hstart]
    rfl
  obtain ⟨hsound, htype⟩ := h.segment s (List.mem_of_getElem? hs)
  obtain ⟨w, hload, hget⟩ := (hi s (List.mem_of_getElem? hs)).loaded hf hw hlong hrecord halike hread
    htype.symm (place ++ [i])
  obtain ⟨x, y, hx, hy, hsame⟩ := hget (row - s.start) (by rw [Segment.stop] at hhi; omega)
  refine ⟨x, y, fun source' => ?_, ?_, hsame⟩
  · rw [under, hl, ok_bind]
    exact hx source'
  · rw [under, hlocate, ok_bind]
    exact Segment.under_stored rfl hload hy

end Column

/-! ## Tables -/

namespace Checkpoint

variable {source : Source} {t u v : Table} {columns : List Column} {preferred : Scheme}
  {f blocks : BlockFile} {d : Disk} {r r' : TableRecord} {policy : SegmentPolicy} {number : Nat}
  {segments segments' : List (List SegmentRecord)}

/-- A table that was written has as many rows as everybody saw. -/
theorem RecordsTable.rows_of_column (hr : RecordsTable preferred (f, d) (t, columns) r)
    (h : Copied source t columns) {c : Column} (hc : c ∈ columns) :
    r.rows = (t.visibleRows .committed).length := by
  rw [hr.rows_eq]
  cases columns with
  | nil => exact absurd hc List.not_mem_nil
  | cons x rest =>
    obtain ⟨-, -, -, -, hrows⟩ := h.column (i := 0) (c := x) rfl
    exact hrows

/-- **A table that was written is loaded** with the columns that were written. -/
theorem Copied.loadTable (h : Copied source t columns) (hne : t.definitions ≠ [])
    (hp : 0 < policy.capacity) (hr : RecordsTable preferred (f, d) (t, columns) r)
    (ha : r.Alike r') (blocks : BlockFile) (number : Nat) :
    ∃ u, loadTable blocks policy number r' = .ok u ∧
      Restored t columns blocks policy number r'.segments u := by
  have hplaces : List.Forall₂ Column.Places columns r'.segments := by
    refine forall₂_iff_getElem?.mpr
      ⟨hr.segments.length_eq.trans ha.segments.length_eq, fun k c rs' hc hrs' => ?_⟩
    obtain ⟨rs, hrs, halike⟩ := exists_left_of_forall₂ ha.segments hrs'
    exact (places_of_records ((forall₂_iff_getElem?.mp hr.segments).2 k c rs hc hrs)).alike halike
  have hdefinitions : r'.definitions = t.definitions := ha.definitions_eq.trans hr.definitions_eq
  have hname : r'.name = t.name := ha.name_eq.trans hr.name_eq
  have hlen : r'.definitions.length = r'.segments.length := by
    rw [hdefinitions, ← h.length_eq]
    exact hplaces.length_eq
  obtain ⟨hle, hlt⟩ := h.rows_le
  have heach : ∀ (k : Nat) (x : ColumnDefinition) (rs : List SegmentRecord),
      r'.definitions[k]? = some x → r'.segments[k]? = some rs → ∃ c, columns[k]? = some c ∧
        loadColumn r' blocks policy number k x rs = .ok (c.storedAt blocks policy [number, k] rs) := by
    intro k x rs hx hrs
    obtain ⟨c, hc, hplace⟩ := exists_left_of_forall₂ hplaces hrs
    obtain ⟨x', hx', htype, hsound, hrows⟩ := h.column hc
    obtain rfl := Option.some.inj (hx'.symm.trans (hdefinitions ▸ hx))
    refine ⟨c, hc, ?_⟩
    rw [loadColumn, ← htype, Column.toColumn_eq hsound (hrows ▸ Nat.lt_of_le_of_lt hle hlt) hplace,
      ok_bind, if_neg]
    · rfl
    · rw [ha.rows_eq, hr.rows_of_column h (List.mem_of_getElem? hc), not_not]
      exact hrows
  obtain ⟨stored, hstored⟩ := exists_zip_mapM_ok
    (f := fun p => loadColumn r' blocks policy number p.2 p.1.1 p.1.2) fun k x rs hx hrs => by
      obtain ⟨c, -, hload⟩ := heach k x rs hx hrs
      exact ⟨_, hload⟩
  obtain ⟨hlength, hall⟩ := getElem?_of_zip_mapM hlen hstored
  have hstoredLength : stored.length = columns.length :=
    hlength.trans (hdefinitions ▸ h.length_eq.symm)
  obtain ⟨versions, hversions, -, hrestored⟩ := h.restored hp hplaces hstoredLength
    fun k c rs hc hrs => by
      obtain ⟨x, hx, -⟩ := h.column hc
      rw [← hdefinitions] at hx
      obtain ⟨s, hs, hload⟩ := hall k x rs hx hrs
      obtain ⟨c', hc', hload'⟩ := heach k x rs hx hrs
      obtain rfl := Option.some.inj (hc.symm.trans hc')
      exact Except.ok.inj (hload'.symm.trans hload) ▸ hs
  refine ⟨_, ?_, hrestored⟩
  have hempty : t.definitions.isEmpty = false := by simpa using hne
  rw [Checkpoint.loadTable, if_neg (not_not.mpr hlen.symm)]
  refine bind_eq_ok.mpr ⟨stored, hstored, ?_⟩
  rw [Table.ofColumns, hdefinitions, hempty, hname, hversions]
  rfl

/-- A table that was written has as many rows as were copied. -/
theorem Restored.rows_eq (hr : Restored t columns blocks policy number segments u)
    (h : Copied source t columns) (hne : t.definitions ≠ [])
    (hplaces : List.Forall₂ Column.Places columns segments) :
    u.rows = (t.visibleRows .committed).length := by
  have hpos : 0 < columns.length := h.length_eq ▸ List.length_pos_iff.mpr hne
  have hc := List.getElem?_eq_getElem hpos
  obtain ⟨rs, hrs, -⟩ := exists_right_of_forall₂ hplaces hc
  obtain ⟨-, -, -, -, hrows⟩ := h.column hc
  obtain ⟨_, -, -, hheld⟩ := Table.holds_of_some hr.storedIn.sound (hr.columns 0 _ rs hc hrs)
  exact hheld.rows_eq.symm.trans hrows

/-- **A table that is loaded mirrors the one that goes on** in the same file. -/
theorem Restored.mirrors (hr : Restored t columns f policy number segments u)
    (hr' : Restored t columns { f with writable := false } policy number segments' v)
    (h : Copied source t columns) (hne : t.definitions ≠ [])
    (hplaces : List.Forall₂ Column.Places columns segments)
    (ha : List.Forall₂ (List.Forall₂ SegmentRecord.Alike) segments segments') (last : Stamp) :
    Table.Mirrors last u v := by
  have hplaces' : List.Forall₂ Column.Places columns segments' := by
    refine forall₂_iff_getElem?.mpr
      ⟨hplaces.length_eq.trans ha.length_eq, fun k c rs' hc hrs' => ?_⟩
    obtain ⟨rs, hrs, halike⟩ := exists_left_of_forall₂ ha hrs'
    exact ((forall₂_iff_getElem?.mp hplaces).2 k c rs hc hrs).alike halike
  have hrows : v.rows = u.rows :=
    (hr'.rows_eq h hne hplaces').trans (hr.rows_eq h hne hplaces).symm
  refine ⟨hr'.storedIn.sound, hr'.name_eq.trans hr.name_eq.symm,
    hr'.definitions_eq.trans hr.definitions_eq.symm,
    hr'.storedIn.policy_eq.trans hr.storedIn.policy_eq.symm, hrows, ?_, fun r => ?_,
    fun time _ i r => by rw [hr'.storedIn.chain_eq, hr.storedIn.chain_eq], fun i r x hx => ?_⟩
  · refine List.ext_getElem? fun k => ?_
    rw [List.getElem?_map, List.getElem?_map]
    cases hc : columns[k]? with
    | none =>
      have hk := List.getElem?_eq_none_iff.mp hc
      rw [List.getElem?_eq_none_iff.mpr (hr'.length_eq ▸ hk),
        List.getElem?_eq_none_iff.mpr (hr.length_eq ▸ hk)]
    | some c =>
      obtain ⟨rs, hrs, -⟩ := exists_right_of_forall₂ hplaces hc
      obtain ⟨rs', hrs', halike⟩ := exists_right_of_forall₂ ha hrs
      rw [hr'.columns k c rs' hc hrs', hr.columns k c rs hc hrs]
      exact congrArg some (Column.bare_storedAt halike c f policy [number, k])
  · rcases Nat.lt_or_ge r u.rows with hlt | hge
    · cases hv : v.stamps? r with
      | none => exact absurd (Table.stamps?_eq_none.mp hv) (by omega)
      | some st' =>
        cases hu : u.stamps? r with
        | none => exact absurd (Table.stamps?_eq_none.mp hu) (by omega)
        | some st =>
          rw [hr'.storedIn.stamps r st' hv, hr.storedIn.stamps r st hu, Option.bind_some,
            Snapshot.stamps?, if_pos (Snapshot.sees_upTo_of_le (Nat.zero_le _))]
          split <;> rfl
    · rw [Table.stamps?_eq_none.mpr hge, Table.stamps?_eq_none.mpr (hrows ▸ hge)]
      rfl
  · rw [hr'.storedIn.chain_eq] at hx
    exact absurd hx List.not_mem_nil

end Checkpoint
end ColumnStore
