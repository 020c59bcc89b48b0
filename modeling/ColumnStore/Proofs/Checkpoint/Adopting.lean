/-
# What is read of a checkpoint that was written

The file of a checkpoint is opened as the block file that was written, its metadata describe the
tables (`Checkpoint.Written.describes`), and a table can go on with its columns in that file
(`Checkpoint.Copied.replaceColumns`).
-/

import ColumnStore.Proofs.Checkpoint.Loading
import ColumnStore.Proofs.Checkpoint.Metadata
import ColumnStore.Proofs.Checkpoint.Writing
import ColumnStore.Proofs.Table.Copying

namespace ColumnStore

/-! ## The file -/

namespace BlockFile

variable {d : Disk} {f g : BlockFile} {name : String}

/-- **A block file that was written can be opened.** -/
theorem Whole.openedAt (hf : f.Whole d) (hname : Disk.Plain name)
    (hentry : d.entry? [name] = some (.file f.file)) (hpath : f.path = name)
    (hheader : Bytes.padTo headerArea (FileHeader.ofKind .blockFile f.blockSize).encode <+:
      d.bytes f.file) : OpenedAt d name { f with writable := false } where
  find := hname.find_eq_ok.mpr hentry
  header := by
    obtain ⟨rest, hbytes⟩ := hheader
    refine ⟨FileHeader.ofKind .blockFile f.blockSize, ?_, rfl⟩
    rw [← hbytes, Bytes.padTo, List.append_assoc, FileHeader.readKind_ofKind _ hf.small]
  path_eq := hpath
  least := hf.least
  length_eq := hf.length_eq
  readable := rfl

/-- **A block file is opened as it was written.** -/
theorem OpenedAt.eq (h : OpenedAt d name g) (hf : f.Whole d) (hname : Disk.Plain name)
    (hentry : d.entry? [name] = some (.file f.file)) (hpath : f.path = name)
    (hheader : Bytes.padTo headerArea (FileHeader.ofKind .blockFile f.blockSize).encode <+:
      d.bytes f.file) : g = { f with writable := false } :=
  Except.ok.inj ((openFile_ok.mpr h).symm.trans
    (openFile_ok.mpr (hf.openedAt hname hentry hpath hheader)))

/-- **What a block file holds** is read from it when it is opened. -/
theorem OpenedAt.read_eq (h : OpenedAt d name g) (hf : f.Whole d) (hname : Disk.Plain name)
    (hentry : d.entry? [name] = some (.file f.file)) (hpath : f.path = name)
    (hheader : Bytes.padTo headerArea (FileHeader.ofKind .blockFile f.blockSize).encode <+:
      d.bytes f.file) (p : BlockPointer) : g.read d p = f.read d p := by
  rw [h.eq hf hname hentry hpath hheader]
  rfl

end BlockFile

/-! ## The columns -/

namespace Column

theorem Contiguous.congr {start stop : Nat} {segments more : List Segment}
    (h : Contiguous start segments stop)
    (hs : List.Forall₂ (fun s s' => s'.start = s.start ∧ s'.count = s.count) segments more) :
    Contiguous start more stop := by
  induction hs generalizing start with
  | nil => exact h
  | cons hab _ ih =>
    refine ⟨hab.1.trans h.1, ih ?_⟩
    rw [Segment.stop, hab.1, hab.2]
    exact h.2

theorem rowsFrom_of_contiguous {start stop : Nat} {segments : List Segment}
    (h : Contiguous start segments stop) (hstop : stop < UInt64.size) :
    rowsFrom start segments = .ok stop := by
  induction segments generalizing start with
  | nil => exact congrArg _ h
  | cons s rest ih =>
    have hle : s.stop ≤ stop := h.2.le
    rw [rowsFrom, if_neg (not_not.mpr h.1), Segment.stop?, if_pos (by omega)]
    exact ih h.2

theorem Contiguous.count_le {start stop : Nat} {segments : List Segment}
    (h : Contiguous start segments stop) : ∀ s ∈ segments, s.start + s.count ≤ stop := by
  induction segments generalizing start with
  | nil => exact fun s hs => absurd hs List.not_mem_nil
  | cons s rest ih =>
    intro t ht
    rcases List.mem_cons.mp ht with rfl | ht
    · exact h.2.le
    · exact ih h.2 t ht

/-- Records of the places of the segments of a column. -/
def Places (c : Column) (records : List SegmentRecord) : Prop :=
  List.Forall₂ (fun s (r : SegmentRecord) => r.start = s.start ∧ r.count = s.count) c.segments records

/-- A column with its values in the blocks that records name. -/
def storedAt (c : Column) (blocks : BlockFile) (policy : SegmentPolicy) (place : List Nat)
    (records : List SegmentRecord) : Column where
  type := c.type
  policy := policy
  segments := records.mapIdx fun i r => r.toSegment blocks c.type (place ++ [i])
  rows := c.rows

/-- **A column is made of the records of its places.** -/
theorem toColumn_eq {c : Column} (h : c.Sound) (hrows : c.rows < UInt64.size)
    {records : List SegmentRecord} (hs : c.Places records) (blocks : BlockFile)
    (policy : SegmentPolicy) (place : List Nat) :
    SegmentRecord.toColumn blocks policy c.type place records =
      .ok (c.storedAt blocks policy place records) := by
  have hcontiguous : Contiguous 0
      (records.mapIdx fun i r => r.toSegment blocks c.type (place ++ [i])) c.rows := by
    refine h.contiguous.congr (forall₂_iff_getElem?.mpr ⟨?_, fun i s t ht hs' => ?_⟩)
    · rw [List.length_mapIdx]
      exact hs.length_eq
    · obtain ⟨r, hr, hstart, hcount⟩ := exists_right_of_forall₂ hs ht
      rw [List.getElem?_mapIdx, hr, Option.map_some] at hs'
      obtain rfl := Option.some.inj hs'
      exact ⟨hstart, hcount⟩
  rw [SegmentRecord.toColumn, ofSegments, rowsFrom_of_contiguous hcontiguous hrows]
  rfl

end Column

namespace Checkpoint

/-- A table with fresh columns of the rows of it that everybody sees. -/
structure Copied (source : Source) (t : Table) (columns : List Column) : Prop where
  sound : t.Sound
  width : t.definitions.length < UInt64.size
  short : RowVersions.stampBytes * t.rows ≤ Bytes.longest
  columns : List.Forall₂
    (Column.CopiedTo source .committed (t.visibleRows .committed)) t.columns columns

section Copied

variable {source : Source} {t : Table} {columns : List Column}

theorem Copied.plain (h : Copied source t columns) : ∀ d ∈ t.definitions, d.type.isNested = false := by
  intro d hd
  obtain ⟨i, hi, rfl⟩ := List.mem_iff_getElem.mp hd
  obtain ⟨hlen, hall⟩ := List.forall₂_iff_get.mp h.sound.columns
  have hc := hall i hi (hlen ▸ hi)
  exact (congrArg ColumnType.isNested hc.type_eq).symm.trans hc.sound.plain

/-- How many rows everybody sees. -/
theorem Copied.rows_le (h : Copied source t columns) :
    (t.visibleRows .committed).length ≤ t.rows ∧ t.rows < UInt64.size := by
  have hshort := h.short
  rw [RowVersions.stampBytes] at hshort
  have hlongest : Bytes.longest < UInt64.size := by decide
  exact ⟨t.length_visibleRows_le .committed, by omega⟩

/-- A fresh column, and the definition that it is of. -/
theorem Copied.column (h : Copied source t columns) {i : Nat} {c : Column}
    (hc : columns[i]? = some c) : ∃ d, t.definitions[i]? = some d ∧ c.type = d.type ∧ c.Sound ∧
      c.rows = (t.visibleRows .committed).length := by
  obtain ⟨x, hx, hcopied⟩ := exists_left_of_forall₂ h.columns hc
  obtain ⟨d, hd, hheld⟩ := exists_left_of_forall₂ h.sound.columns hx
  exact ⟨d, hd, hcopied.type_eq.trans hheld.type_eq, hcopied.sound, hcopied.rows_eq⟩

theorem Copied.length_eq (h : Copied source t columns) : columns.length = t.definitions.length :=
  h.columns.length_eq.symm.trans h.sound.columns.length_eq.symm

theorem Copied.head_rows (h : Copied source t columns) :
    (columns.head?.map (·.rows)).getD 0 ≤ t.rows := by
  cases hc : columns.head? with
  | none => exact Nat.zero_le _
  | some c =>
    rw [List.head?_eq_getElem?] at hc
    obtain ⟨-, -, -, -, hrows⟩ := h.column hc
    exact Nat.le_trans (Nat.le_of_eq hrows) h.rows_le.1

variable {preferred : Scheme} {f : BlockFile} {d : Disk} {r : TableRecord}

/-- **The record of a table that was written** can be written and read. -/
theorem Copied.record (h : Copied source t columns) (hf : f.Whole d)
    (hlong : (d.bytes f.file).length ≤ Bytes.longest)
    (hr : RecordsTable preferred (f, d) (t, columns) r) :
    r.Plain ∧ r.rows < UInt64.size ∧ ∀ rs ∈ r.segments, ∀ s ∈ rs, s.Wordy := by
  obtain ⟨hle, hlt⟩ := h.rows_le
  refine ⟨⟨hr.definitions_eq ▸ h.plain, hr.definitions_eq ▸ h.width⟩, ?_, fun rs hrs s hs => ?_⟩
  · rw [hr.rows_eq]
    exact Nat.lt_of_le_of_lt h.head_rows hlt
  · obtain ⟨i, hi, rfl⟩ := List.mem_iff_getElem.mp hrs
    obtain ⟨hlen, hall⟩ := List.forall₂_iff_get.mp hr.segments
    have hsegments := hall i (hlen ▸ hi) hi
    obtain ⟨-, -, -, hsound, hrows⟩ := h.column (List.getElem?_eq_getElem (hlen ▸ hi))
    obtain ⟨j, hj, rfl⟩ := List.mem_iff_getElem.mp hs
    obtain ⟨hlen', hall'⟩ := List.forall₂_iff_get.mp hsegments
    have hone := hall' j (hlen' ▸ hj) hj
    have hstop := hsound.contiguous.count_le _ (List.getElem_mem (hlen' ▸ hj))
    obtain ⟨_, _, -, hholds⟩ := hone.image
    obtain ⟨-, hblock, hlength⟩ := hholds.read_ok hf hlong
    have hstart := hone.start_eq
    have hcount := hone.count_eq
    simp only [List.get_eq_getElem] at hstart hcount
    refine ⟨by omega, by omega, ⟨Nat.lt_of_le_of_lt (Nat.le_add_right _ _) hblock, hholds.count_lt, ?_⟩⟩
    exact Nat.lt_of_le_of_lt (Nat.le_of_eq hholds.length_eq) hlength

/-- The records of a column that was written name its places. -/
theorem places_of_records {c : Column} {rs : List SegmentRecord} {s : Writing}
    (h : List.Forall₂ (Records preferred s) c.segments rs) : c.Places rs :=
  h.imp fun _ _ hr => ⟨hr.start_eq, hr.count_eq⟩

/-- **The columns in the file** of a checkpoint. -/
theorem RecordsTable.stored (hr : RecordsTable preferred (f, d) (t, columns) r)
    (hsound : ∀ c ∈ columns, c.Sound ∧ c.rows < UInt64.size) {policy : SegmentPolicy} {i : Nat}
    {stored : List Column} (hok : storedColumns f policy i columns r = .ok stored) :
    stored.length = columns.length ∧ ∀ (k : Nat) (c : Column) (rs : List SegmentRecord),
      columns[k]? = some c → r.segments[k]? = some rs →
        stored[k]? = some (c.storedAt f policy [i, k] rs) := by
  obtain ⟨hlen, hall⟩ := getElem?_of_zip_mapM hr.segments.length_eq hok
  refine ⟨hlen, fun k c rs hc hrs => ?_⟩
  obtain ⟨z, hz, hcolumn⟩ := hall k c rs hc hrs
  have hrecords := (forall₂_iff_getElem?.mp hr.segments).2 k c rs hc hrs
  obtain ⟨hc, hrows⟩ := hsound c (List.mem_of_getElem? hc)
  have heq := Column.toColumn_eq hc hrows (places_of_records hrecords) f policy [i, k]
  exact Except.ok.inj (heq.symm.trans hcolumn) ▸ hz

/-- The columns of a table in the file of the checkpoint. -/
theorem Copied.stored (h : Copied source t columns) {policy : SegmentPolicy} {i : Nat}
    (hr : RecordsTable preferred (f, d) (t, columns) r) {stored : List Column}
    (hok : storedColumns f policy i columns r = .ok stored) :
    stored.length = columns.length ∧ ∀ (k : Nat) (c : Column) (rs : List SegmentRecord),
      columns[k]? = some c → r.segments[k]? = some rs →
        stored[k]? = some (c.storedAt f policy [i, k] rs) := by
  refine hr.stored (fun c hc => ?_) hok
  obtain ⟨k, hk⟩ := List.mem_iff_getElem?.mp hc
  obtain ⟨d, -, -, hsound, hrows⟩ := h.column hk
  obtain ⟨hle, hlt⟩ := h.rows_le
  exact ⟨hsound, hrows ▸ Nat.lt_of_le_of_lt hle hlt⟩

/-- A table with the columns that were written of another one, in the blocks that records name. -/
structure Restored (t : Table) (columns : List Column) (blocks : BlockFile) (policy : SegmentPolicy)
    (number : Nat) (segments : List (List SegmentRecord)) (u : Table) : Prop where
  name_eq : u.name = t.name
  definitions_eq : u.definitions = t.definitions
  storedIn : u.StoredIn blocks policy
  length_eq : u.columns.length = columns.length
  columns : ∀ (k : Nat) (c : Column) (rs : List SegmentRecord), columns[k]? = some c →
    segments[k]? = some rs → u.columns[k]? = some (c.storedAt blocks policy [number, k] rs)

/-- **Columns in a block file** make a table of the rows that were copied. -/
theorem Copied.restored (h : Copied source t columns) {policy : SegmentPolicy}
    (hp : 0 < policy.capacity) {blocks : BlockFile} {number : Nat}
    {segments : List (List SegmentRecord)} (hplaces : List.Forall₂ Column.Places columns segments)
    {stored : List Column} (hlen : stored.length = columns.length)
    (hall : ∀ (k : Nat) (c : Column) (rs : List SegmentRecord), columns[k]? = some c →
      segments[k]? = some rs → stored[k]? = some (c.storedAt blocks policy [number, k] rs)) :
    ∃ versions, Table.loadedVersions t.name stored t.definitions.length = .ok versions ∧
      versions.size ≤ t.rows ∧ Restored t columns blocks policy number segments
        { name := t.name, definitions := t.definitions, policy, columns := stored, versions } := by
  obtain ⟨hle, hlt⟩ := h.rows_le
  have hstored : List.Forall₂ (fun x c => Column.StoredIn blocks x.type policy c ∧
      c.rows = (t.visibleRows .committed).length) t.definitions stored := by
    refine forall₂_iff_getElem?.mpr ⟨h.length_eq.symm.trans hlen.symm, fun k x s hx hs => ?_⟩
    obtain ⟨c, hc⟩ : ∃ c, columns[k]? = some c :=
      ⟨_, List.getElem?_eq_getElem (hlen ▸ (List.getElem?_eq_some_iff.mp hs).1)⟩
    obtain ⟨rs, hrs, hplace⟩ := exists_right_of_forall₂ hplaces hc
    obtain rfl := Option.some.inj (hs.symm.trans (hall k c rs hc hrs))
    obtain ⟨x', hx', htype, hsound, hrows⟩ := h.column hc
    obtain rfl := Option.some.inj (hx.symm.trans hx')
    have heq := Column.toColumn_eq hsound (hrows ▸ Nat.lt_of_le_of_lt hle hlt) hplace blocks policy
      [number, k]
    exact ⟨htype ▸ (SegmentRecord.toColumn_ok hsound.plain heq).1, hrows⟩
  have hrows : ∀ c ∈ stored, c.rows = (t.visibleRows .committed).length := by
    intro c hc
    obtain ⟨_, -, -, hrows⟩ := exists_mem_left_of_forall₂ hstored hc
    exact hrows
  obtain ⟨versions, hversions, hsize⟩ := Table.loadedVersions_eq t.name
    (hlen.trans h.length_eq) hrows (Nat.le_trans (Nat.mul_le_mul_left _ hle) h.short)
  exact ⟨versions, hversions, Nat.le_trans hsize hle, rfl, rfl,
    Table.storedIn_of_columns hp rfl rfl hversions (hstored.imp fun _ _ => And.left), hlen, hall⟩

/-- **A table goes on with its columns in the file** of a checkpoint. -/
theorem Copied.replaceColumns (h : Copied source t columns) (hdropped : t.dropped = false) {i : Nat}
    (hr : RecordsTable preferred (f, d) (t, columns) r) {stored : List Column}
    (hok : storedColumns f t.policy i columns r = .ok stored) :
    ∃ t', t.replaceColumns stored = .ok t' ∧ Table.Continues t t' ∧ t'.rows ≤ t.rows ∧
      Restored t columns f t.policy i r.segments t' := by
  obtain ⟨hlen, hall⟩ := h.stored hr hok
  obtain ⟨versions, hversions, hsize, hrestored⟩ := h.restored h.sound.capacity
    (hr.segments.imp fun _ _ => places_of_records) hlen hall
  have heq : { t with columns := stored, versions } =
      ({ name := t.name, definitions := t.definitions, policy := t.policy, columns := stored,
         versions } : Table) := by
    rw [hdropped]
  refine ⟨{ t with columns := stored, versions }, ?_, ?_, hsize, heq ▸ hrestored⟩
  · rw [Table.replaceColumns, hversions]
    rfl
  · exact ⟨heq ▸ hrestored.storedIn.sound, rfl, rfl, rfl, rfl⟩

end Copied

/-! ## The metadata -/

/-- **The metadata of a checkpoint that was written** are read back. -/
theorem Written.reads {policy : SegmentPolicy} {n : Nat} {last : Stamp}
    {tables : List (Table × List Column)} {f : BlockFile} {d : Disk} {w : WrittenCheckpoint}
    {records : List TableRecord} (hw : Written policy n last tables (f, d) w records)
    (hn : n < UInt64.size) (hlast : last < UInt64.size) {s : Source}
    (htables : ∀ p ∈ tables, Copied s p.1 p.2) (hf : f.Whole d)
    (hlong : (d.bytes f.file).length ≤ Bytes.longest) :
    ∃ b m, f.read d w.manifest.metadata = .ok b ∧ Coder.metadata.decode b = some (m, []) ∧
      m.iteration = n ∧ m.lastCommit = last ∧ List.Forall₂ TableRecord.Alike records m.tables ∧
      ∀ r ∈ m.tables, r.Plain := by
  obtain ⟨hok, -, hlength⟩ := BlockFile.Holds.read_ok hw.metadata hf hlong
  have hrecord : ∀ r ∈ records,
      r.Plain ∧ r.rows < UInt64.size ∧ ∀ rs ∈ r.segments, ∀ s ∈ rs, s.Wordy := by
    intro r hr
    obtain ⟨p, hp, hone⟩ := exists_mem_left_of_forall₂ hw.each hr
    exact (htables p hp).record hf hlong hone
  obtain ⟨m, hm, hiteration, htime, halike⟩ :=
    Coder.metadata_reads (m := ⟨n, last, records⟩) hn hlast (fun r hr => (hrecord r hr).2) hlength
  refine ⟨_, m, hok, by simpa only [List.append_nil] using hm [], hiteration, htime, halike,
    fun r' hr' => ?_⟩
  obtain ⟨r, hr, heq⟩ := exists_mem_left_of_forall₂ halike hr'
  have hplain := (hrecord r hr).1
  exact ⟨heq.definitions_eq ▸ hplain.types, heq.definitions_eq ▸ hplain.width⟩

/-- **The metadata of a checkpoint that was written** describe its tables. -/
theorem Written.describes {policy : SegmentPolicy} {n : Nat} {last : Stamp}
    {tables : List (Table × List Column)} {f : BlockFile} {d : Disk} {w : WrittenCheckpoint}
    {records : List TableRecord} (hw : Written policy n last tables (f, d) w records)
    (hn : n < UInt64.size) (hlast : last < UInt64.size) {s : Source}
    (htables : ∀ p ∈ tables, Copied s p.1 p.2) (hf : f.Whole d)
    (hlong : (d.bytes f.file).length ≤ Bytes.longest) {b : Bytes}
    (hb : f.read d w.manifest.metadata = .ok b) : Describes last b := by
  obtain ⟨b', m, hb', hm, -, htime, -, hplain⟩ := hw.reads hn hlast htables hf hlong
  obtain rfl := Except.ok.inj (hb'.symm.trans hb)
  exact ⟨m, [], hm, Nat.le_of_eq htime, hplain⟩

end Checkpoint
end ColumnStore
