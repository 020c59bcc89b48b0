/-
# Scans of tables that can come about

A scan does not read a segment if statistics rule out that a row of it passes the filters, and those of
one column decide for all.  That is right as long as the segments of all columns begin and end at the
same rows, and the statistics of each of them admit whatever any reader gets from it (`Table.Alike`).
To add rows, to write over them, and to put copies in place of the columns keeps it so (`Alike.move`),
if only the columns of a checkpoint that is loaded are so.  Those that a checkpoint of such a table has
just written are, for what is read from a block is the same as what was written (`Held.stored`).

A scan of such a table gives what a reader gets who goes through it row by row: the rows that the
snapshot sees and the filters admit, and then those of the reader (`Aligned.scan_eq`).
-/

import ColumnStore.Proofs.Checkpoint.Restoring
import ColumnStore.Proofs.Database.Reading
import ColumnStore.Proofs.Table.Reachable

namespace ColumnStore

/-! ## Columns -/

namespace Column

variable {source source' : Source} {old : List (Nat × Nat)} {base : Nat} {c c' : Column}

/-- A column that has grown from segments with the given boundaries, with statistics that are right. -/
structure Trusted (source : Source) (old : List (Nat × Nat)) (base : Nat) (c : Column) : Prop where
  cut : c.Cut old base
  accounts : ∃ ws, c.Accounts source ws
  capacity : 0 < c.policy.capacity

/-- **Rows that are added** are taken into account, whether all of them are added or not. -/
theorem Trusted.append (h : c.Trusted source old base) {given : ValueVector} (hgiven : given.Typed)
    {rows : Selection} {r : Except StorageError Unit} (hok : c.append given rows = (r, c'))
    (hcalm : r ≠ .error (.vector .outOfRange)) : c'.Trusted source old base := by
  obtain ⟨hcut, hpolicy⟩ := h.cut.append h.capacity hgiven hok hcalm
  refine ⟨hcut, append_tries (P := fun c => ∃ ws, c.Accounts source ws) ?_ h.cut.sound hgiven hok
    hcalm h.accounts, hpolicy ▸ h.capacity⟩
  rintro c c' front s t u rows taken values hlists hfilled hc ⟨ws, hws⟩
  exact ⟨_, hws.filled hc hlists hfilled⟩

/-- **Rows that are written over** are taken into account. -/
theorem Trusted.retouched (h : c.Trusted source old base) (hr : c.Retouched c') :
    c'.Trusted source old base := by
  have hkeeps : ∀ {d e : Column}, d.Trusted source old base → Keeps d e →
      (∃ ws, e.Accounts source ws) → e.Trusted source old base := fun hd hk hws =>
    ⟨hd.cut.keeps hk, hws, hk.policy_eq ▸ hd.capacity⟩
  induction hr with
  | refl => exact h
  | update _ hok ih =>
    obtain ⟨ws, hws⟩ := ih.accounts
    exact hkeeps ih (keeps_of_update ih.cut.sound hok) ⟨_, hws.update ih.cut.sound hok⟩
  | commitUpdate _ hok ih =>
    obtain ⟨ws, hws⟩ := ih.accounts
    exact hkeeps ih (keeps_of_commitUpdate ih.cut.sound hok) ⟨ws, hws.commitUpdate ih.cut.sound hok⟩
  | revertUpdate _ hok ih =>
    obtain ⟨ws, hws⟩ := ih.accounts
    exact hkeeps ih (keeps_of_revertUpdate ih.cut.sound hok) ⟨ws, hws.revertUpdate ih.cut.sound hok⟩

/-- Other files on the disk make no difference to a column whose segments stay. -/
theorem Trusted.congr (h : c.Trusted source old base)
    (hloads : c.Safe fun v => source'.load v = source.load v) : c.Trusted source' old base := by
  obtain ⟨ws, hws⟩ := h.accounts
  refine ⟨h.cut, ⟨ws, hws.within, fun s hs => ?_⟩, h.capacity⟩
  obtain ⟨hrows, htyped, hunder, hchain, hleast⟩ := hws.segment s hs
  refine ⟨hrows, htyped, fun i x hi hx => ?_, hchain, hleast⟩
  rw [Segment.under, Segment.base_congr (hloads.segment hs)] at hx
  exact hunder i x hi hx

/-- A new column has no statistics. -/
theorem trusted_new {type : ColumnType} {policy : SegmentPolicy} (h : Column.new type policy = .ok c)
    (hp : 0 < policy.capacity) (source : Source) : c.Trusted source [] 0 := by
  obtain ⟨rfl, -⟩ := fresh_ok h
  exact ⟨cut_new h, ⟨[], accounts_empty rfl source⟩, hp⟩

/-- **The statistics of a copy** are right about it. -/
theorem CopiedInto.trusted {s : Snapshot} {rows : List Nat} {fresh : Column}
    (h : CopiedInto source s rows c fresh) (hc : c.Legible source) (hrows : ∀ r ∈ rows, r < c.rows)
    (hp : 0 < c.policy.capacity) (source' : Source) : fresh.Trusted source' [] 0 := by
  have hlegible : fresh.Legible source' := h.toCopiedTo.legible hc hrows
  refine ⟨h.cut, accounts_of_tallied h.tallied h.sound fun row x hrow hx => ?_, h.policy_eq ▸ hp⟩
  obtain ⟨y, hy, hfits⟩ := hlegible.under row hrow
  exact Except.ok.inj (hy.symm.trans hx) ▸ hfits

/-- **A verdict on a segment** is right for every reader of a row of it. -/
theorem Trusted.check (h : c.Trusted source old base) {i : Nat} {s : Segment}
    (hs : c.segments[i]? = some s) {op : Comparison} {constant : Scalar}
    (hfits : constant.fits c.type = true) (hverdict : s.statistics.check op constant = .alwaysFalse)
    {row : Nat} (hlow : s.start ≤ row) (hhigh : row < s.stop) {snapshot : Snapshot} {x : Scalar}
    (hx : c.value source row snapshot = .ok x) : op.holds x constant = false := by
  obtain ⟨ws, hws⟩ := h.accounts
  have hmem := List.mem_of_getElem? hs
  have hplace : row - s.start < s.count := by
    unfold Segment.stop at hhigh
    omega
  obtain ⟨-, hl⟩ := locate_of_mem h.cut.sound hs hplace
  rw [Nat.add_sub_cancel' hlow] at hl
  have hfetch : (s.fetch source (row - s.start) snapshot).result = .ok x := by
    rw [Segment.fetch_result, ← hx, value_of_locate hl]
    rfl
  have htype := (h.cut.sound.segment s hmem).2
  exact ((hws.segment s hmem).check op (htype ▸ hfits) hplace hfetch).1 hverdict

end Column

/-! ## Columns of a checkpoint -/

section Stored

variable {f : BlockFile} {d : Disk} {preferred : Scheme}

/-- **The statistics of a segment that was written** are right about what is read from its blocks. -/
theorem Segment.Accounts.stored {source : Source} {s : Segment} {ws : Segment.Writes}
    (h : s.Accounts source ws) (hplain : s.type.isNested = false) (hi : s.Imaged preferred)
    (hf : preferred.Faithful) (hw : f.Whole d) (hlong : (d.bytes f.file).length ≤ Bytes.longest)
    {r : SegmentRecord} (hr : Checkpoint.Records preferred (f, d) s r) (place : List Nat) :
    (r.toSegment f s.type place).Accounts d.source ws := by
  obtain ⟨w, hload, hget⟩ := hi.loaded hf hw hlong hr ⟨rfl, rfl, rfl⟩ (fun _ => rfl) rfl place
  obtain ⟨hsound, htype, -⟩ := Disk.load_sound hplain hload
  have htype : w.type = (r.toSegment f s.type place).type := htype
  have hstatistics : (r.toSegment f s.type place).statistics = s.statistics := hr.statistics_eq
  have hstart : (r.toSegment f s.type place).start = s.start := hr.start_eq
  have hcount : (r.toSegment f s.type place).count = s.count := hr.count_eq
  refine ⟨?_, ?_, fun i y hlt hy => ?_, fun i v hv => absurd hv List.not_mem_nil, ?_⟩
  · rw [hstatistics, hcount]
    exact h.rows_eq
  · rw [hstatistics]
    exact h.typed
  · obtain ⟨x, y', hx, hy', hsame⟩ := hget i (hcount ▸ hlt)
    have hunder : (r.toSegment f s.type place).under d.source i = .ok y' :=
      Segment.under_stored rfl hload hy'
    obtain rfl := Except.ok.inj (hunder.symm.trans hy)
    rw [hstatistics]
    exact ⟨htype ▸ hsound.typed i y' hy', (h.under i x (hcount ▸ hlt) (hx source)).2.same hsame⟩
  · rw [hstatistics, Segment.stop, hstart, hcount]
    exact h.least_none

/-- A segment that was written holds the cells of its values. -/
theorem Segment.Imaged.loads {s : Segment} (h : s.Imaged preferred)
    (hplain : s.type.isNested = false) (hf : preferred.Faithful) (hw : f.Whole d)
    (hlong : (d.bytes f.file).length ≤ Bytes.longest) {r : SegmentRecord}
    (hr : Checkpoint.Records preferred (f, d) s r) (place : List Nat) :
    ∃ cells, Column.Loads d.source s.type (r.toSegment f s.type place) cells := by
  obtain ⟨w, hload, -⟩ := h.loaded hf hw hlong hr ⟨rfl, rfl, rfl⟩ (fun _ => rfl) rfl place
  obtain ⟨hsound, -, hcapacity⟩ := Disk.load_sound hplain hload
  obtain ⟨values, hlists, -⟩ := ValueVector.exists_lists fun i hi =>
    ValueVector.get?_of_lt hsound (hcapacity.symm ▸ List.mem_range.mp hi)
  exact ⟨_, r.start, r.statistics, _, w, values, rfl, rfl, hload, hlists, rfl⟩

namespace Column

/-- The segments of a column that was written. -/
theorem forall₂_storedAt {P : Segment → SegmentRecord → Prop} {c : Column} {rs : List SegmentRecord}
    (h : List.Forall₂ P c.segments rs) (f : BlockFile) (policy : SegmentPolicy) (place : List Nat) :
    List.Forall₂ (fun s s' => ∃ r place, P s r ∧ s' = SegmentRecord.toSegment r f c.type place)
      c.segments (c.storedAt f policy place rs).segments := by
  refine forall₂_iff_getElem?.mpr ⟨?_, fun i s s' hs hs' => ?_⟩
  · rw [length_storedAt]
    exact h.length_eq
  · obtain ⟨r, hr, hP⟩ := exists_right_of_forall₂ h hs
    rw [storedAt, List.getElem?_mapIdx, hr, Option.map_some] at hs'
    exact ⟨r, place ++ [i], hP, (Option.some.inj hs').symm⟩

variable {source : Source} {s : Snapshot} {rows : List Nat} {c fresh : Column}
  {rs : List SegmentRecord}

/-- **A copy that was written** starts with what is in its blocks. -/
theorem CopiedTo.starts (h : CopiedTo source s rows c fresh)
    (hf : fresh.policy.compression.Faithful) (hw : f.Whole d)
    (hlong : (d.bytes f.file).length ≤ Bytes.longest) (hrows : rows.length < UInt64.size)
    (hr : List.Forall₂ (Checkpoint.Records fresh.policy.compression (f, d)) fresh.segments rs)
    (place : List Nat) : ∃ cells, Starts d.source (fresh.storedAt f fresh.policy place rs) cells := by
  have hok := toColumn_eq h.sound (h.rows_eq ▸ hrows) (Checkpoint.places_of_records hr) f fresh.policy
    place
  obtain ⟨cells, hcells⟩ : ∃ cells, List.Forall₂ (Loads d.source fresh.type)
      (fresh.storedAt f fresh.policy place rs).segments cells := by
    refine exists_forall₂ fun s' hs' => ?_
    obtain ⟨s, hs, r, place, hrecord, rfl⟩ :=
      exists_mem_left_of_forall₂ (forall₂_storedAt hr f fresh.policy place) hs'
    have htype := (h.sound.segment s hs).2
    exact htype ▸ (h.imaged s hs).loads (htype ▸ h.sound.plain) hf hw hlong hrecord place
  exact ⟨_, .stored h.sound.plain hcells hok⟩

/-- **A copy that was written** has all the segments that it is to have, and its statistics are right. -/
theorem CopiedInto.stored (h : CopiedInto source s rows c fresh) (hc : c.Legible source)
    (hlt : ∀ r ∈ rows, r < c.rows) (hp : 0 < c.policy.capacity)
    (hf : fresh.policy.compression.Faithful) (hw : f.Whole d)
    (hlong : (d.bytes f.file).length ≤ Bytes.longest) (hrows : rows.length < UInt64.size)
    (hr : List.Forall₂ (Checkpoint.Records fresh.policy.compression (f, d)) fresh.segments rs)
    (place : List Nat) : (fresh.storedAt f fresh.policy place rs).Trusted d.source
      (Column.cut fresh.policy.capacity 0 rows.length) rows.length := by
  obtain ⟨cells, hstarts⟩ := h.toCopiedTo.starts hf hw hlong hrows hr place
  have hsegments := forall₂_storedAt hr f fresh.policy place
  have htrusted := h.trusted hc hlt hp source
  obtain ⟨ws, hws⟩ := htrusted.accounts
  have hboundaries : (fresh.storedAt f fresh.policy place rs).boundaries =
      Column.cut fresh.policy.capacity 0 rows.length := by
    rw [← h.rows_eq, ← List.nil_append (Column.cut ..), ← h.cut.boundaries_eq htrusted.capacity]
    refine (map_eq_of_forall₂ (hsegments.imp ?_)).symm
    rintro s s' ⟨r, place, hrecord, rfl⟩
    exact Prod.ext hrecord.start_eq.symm
      (congrArg₂ (· + ·) hrecord.start_eq.symm hrecord.count_eq.symm)
  refine ⟨?_, ⟨ws, hws.within, fun s' hs' => ?_⟩, htrusted.capacity⟩
  · have hcut := hstarts.refines.2
    rw [hboundaries] at hcut
    exact h.rows_eq ▸ hcut
  · obtain ⟨s, hs, r, place, hrecord, rfl⟩ := exists_mem_left_of_forall₂ hsegments hs'
    have htype := (h.sound.segment s hs).2
    exact htype ▸ (hws.segment s hs).stored (htype ▸ h.sound.plain) (h.imaged s hs) hf hw hlong hrecord
      place

end Column
end Stored

/-! ## Tables -/

namespace Table

variable {d d' : Disk} {source source' : Source} {t t' : Table}

/-- Columns that have grown from segments of the same rows, with statistics that are right. -/
def Alike (source : Source) (columns : List Column) : Prop :=
  ∃ old base, ∀ c ∈ columns, c.Trusted source old base

theorem Alike.append (h : Alike source t.columns) {vectors : List ValueVector} {slots : Selection}
    {stamp : Stamp} {r : Except StorageError (Nat × Nat)} (hvectors : ∀ v ∈ vectors, v.Typed)
    (hok : t.append vectors slots stamp = (r, t')) (hcalm : r ≠ .error (.vector .outOfRange)) :
    Alike source t'.columns := by
  obtain ⟨old, base, hall⟩ := h
  refine ⟨old, base, ?_⟩
  have hkeeps : ∀ {r : Except StorageError Unit} {columns : List Column},
      appendColumns slots t.columns vectors = (r, columns) → r ≠ .error (.vector .outOfRange) →
        ∀ c ∈ columns, c.Trusted source old base := by
    intro r columns hok hcalm c' hc'
    obtain ⟨c, hc, hadded⟩ := exists_mem_left_of_forall₂ (appendColumns_cases hok) hc'
    rcases hadded with rfl | ⟨v, hv, r', hok', hr⟩
    · exact hall c' hc
    · refine (hall c hc).append (hvectors v hv) hok' ?_
      rcases hr with rfl | rfl
      · rintro ⟨⟩
      · exact hcalm
  unfold Table.append at hok
  split at hok
  · obtain ⟨-, rfl⟩ := Prod.mk.inj hok
    exact hall
  split at hok
  · obtain ⟨-, rfl⟩ := Prod.mk.inj hok
    exact hall
  split at hok
  · rename_i e columns happend
    obtain ⟨rfl, rfl⟩ := Prod.mk.inj hok
    exact hkeeps happend fun he => hcalm (congrArg _ (Except.error.inj he))
  · rename_i columns happend
    obtain ⟨rfl, rfl⟩ := Prod.mk.inj hok
    exact hkeeps happend (by rintro ⟨⟩)

theorem Alike.retouched (h : Alike source t.columns) (hr : t.Retouched t') :
    Alike source t'.columns := by
  obtain ⟨old, base, hall⟩ := h
  refine ⟨old, base, fun c' hc' => ?_⟩
  obtain ⟨c, hc, htouched⟩ := exists_mem_left_of_forall₂ hr.columns hc'
  exact (hall c hc).retouched htouched

theorem Alike.congr (h : Alike source t.columns)
    (hloads : t.Safe fun v => source'.load v = source.load v) : Alike source' t.columns := by
  obtain ⟨old, base, hall⟩ := h
  exact ⟨old, base, fun c hc => (hall c hc).congr (hloads.column hc)⟩

/-- **Copies of the columns of a table** are alike. -/
theorem Held.alike_of_copied (h : t.Held source) {s : Snapshot} {columns : List Column}
    (hcopy : List.Forall₂ (Column.CopiedInto source s (t.visibleRows s)) t.columns columns)
    (source' : Source) : Alike source' columns := by
  refine ⟨[], 0, fun f hf => ?_⟩
  obtain ⟨c, hc, hcopied⟩ := exists_mem_left_of_forall₂ hcopy hf
  obtain ⟨definition, -, hcarried⟩ := exists_mem_left_of_forall₂ h.columns hc
  refine hcopied.trusted hcarried.legible (fun r hr => ?_) (hcarried.policy_eq ▸ h.capacity) source'
  exact Nat.lt_of_lt_of_le (lt_of_mem_visibleRows hr) hcarried.rows_le

/-- **Columns that were written** are alike, and the table can start with them. -/
theorem Held.stored (h : t.Held source) {s : Snapshot} {columns : List Column}
    (hcopy : List.Forall₂ (Column.CopiedInto source s (t.visibleRows s)) t.columns columns)
    (hword : t.rows < UInt64.size) (hf : t.policy.compression.Faithful) {f : BlockFile}
    (hw : f.Whole d) (hlong : (d.bytes f.file).length ≤ Bytes.longest) {r : TableRecord}
    (hr : Checkpoint.RecordsTable t.policy.compression (f, d) (t, columns) r) {i : Nat}
    {stored : List Column} (hok : Checkpoint.storedColumns f t.policy i columns r = .ok stored) :
    List.Forall₂ (Begins d t.policy) t.definitions stored ∧ Alike d.source stored := by
  have hrows : (t.visibleRows s).length < UInt64.size :=
    Nat.lt_of_le_of_lt (t.length_visibleRows_le s) hword
  obtain ⟨hlength, hall⟩ := hr.stored (fun fresh hfresh => by
    obtain ⟨c, -, hcopied⟩ := exists_mem_left_of_forall₂ hcopy hfresh
    exact ⟨hcopied.sound, hcopied.rows_eq ▸ hrows⟩) hok
  -- Each of them is the copy of a column, in the blocks that its records name.
  have hstored : List.Forall₂ (fun definition z => Begins d t.policy definition z ∧
      z.Trusted d.source (Column.cut t.policy.capacity 0 (t.visibleRows s).length)
        (t.visibleRows s).length) t.definitions stored := by
    refine forall₂_iff_getElem?.mpr ⟨?_, fun k definition z hd hz => ?_⟩
    · exact (h.columns.length_eq.trans hcopy.length_eq).trans hlength.symm
    obtain ⟨c, hc, hcarried⟩ := exists_right_of_forall₂ h.columns hd
    obtain ⟨fresh, hfresh, hcopied⟩ := exists_right_of_forall₂ hcopy hc
    obtain ⟨rs, hrs, hrecords⟩ := exists_right_of_forall₂ hr.segments hfresh
    have hpolicy : fresh.policy = t.policy := hcopied.policy_eq.trans hcarried.policy_eq
    obtain rfl := Option.some.inj (hz.symm.trans (hall k fresh rs hfresh hrs))
    rw [← hpolicy] at hrecords hf ⊢
    refine ⟨⟨hcopied.type_eq.trans hcarried.type_eq, rfl, ?_⟩, ?_⟩
    · exact hcopied.toCopiedTo.starts hf hw hlong hrows hrecords [i, k]
    · exact hcopied.stored hcarried.legible
        (fun row hrow => Nat.lt_of_lt_of_le (lt_of_mem_visibleRows hrow) hcarried.rows_le)
        (hcarried.policy_eq ▸ h.capacity) hf hw hlong hrows hrecords [i, k]
  refine ⟨hstored.imp fun _ _ => And.left, Column.cut t.policy.capacity 0 (t.visibleRows s).length,
    (t.visibleRows s).length, fun z hz => ?_⟩
  obtain ⟨definition, -, -, htrusted⟩ := exists_mem_left_of_forall₂ hstored hz
  exact htrusted

/-- The columns of a table are those of a checkpoint. -/
def Loaded (d : Disk) (t t' : Table) : Prop :=
  ∃ columns, List.Forall₂ (Begins d t.policy) t.definitions columns ∧
    t.replaceColumns columns = .ok t'

/-- **Whatever is done to a table,** its columns stay alike, if those of a checkpoint are. -/
theorem Alike.move (h : Alike d.source t.columns) (hheld : t.Held d.source) (hmove : Move d t d' t')
    (hload : Loaded d t t' → Alike d'.source t'.columns) : Alike d'.source t'.columns := by
  cases hheld.becomes hmove with
  | disk hloads => exact h.congr hloads
  | append hvectors hcalm => exact h.append hvectors rfl hcalm
  | retouch hr => exact h.retouched hr
  | reload hcolumns hok => exact hload ⟨_, hcolumns, hok⟩
  | compact hk hcopy hok =>
    obtain ⟨versions, -, heq⟩ := bind_eq_ok.mp hok
    obtain rfl := Except.ok.inj heq
    exact (hheld.kept hk).alike_of_copied hcopy d.source

/-- A table that can come about, where the columns of each checkpoint that it is loaded with are
alike. -/
inductive Aligned : Disk → Table → Prop
  | begin {d : Disk} {t : Table} (h : Reached d t) (hc : Alike d.source t.columns) : Aligned d t
  | move {d d' : Disk} {t t' : Table} (h : Aligned d t) (hmove : Move d t d' t')
      (hload : Loaded d t t' → Alike d'.source t'.columns) : Aligned d' t'

theorem Aligned.reached (h : Aligned d t) : Reached d t := by
  induction h with
  | begin h _ => exact h
  | move _ hmove _ ih => exact ih.move hmove

/-- **The columns of such a table** are alike. -/
theorem Aligned.alike (h : Aligned d t) : Alike d.source t.columns := by
  induction h with
  | begin _ hc => exact hc
  | move h hmove hload ih => exact ih.move h.reached.held hmove hload

/-- **A checkpoint** leaves such a table: its copy is written among others to a block file, the stored
values stay where they are, and the table goes on with the columns that were written. -/
theorem Aligned.checkpoint (h : Aligned d t) {decoded : Decoded} (hk : decoded.Kept d (· ∈ t.stored))
    {s : Snapshot} {vectorSize : Nat} {columns : List Column}
    (hcopy : (t.materialize (.ofDisk d decoded) s vectorSize).result = .ok columns)
    (hword : t.rows < UInt64.size) (hf : t.policy.compression.Faithful)
    {start : Checkpoint.Writing} (hstart : start.1.Whole start.2) {number : Nat} {last : Stamp}
    {tables : List (Table × List Column)} {w : WrittenCheckpoint} {f : BlockFile}
    (hwrite : Checkpoint.writeContents start t.policy number last tables = (.ok w, (f, d')))
    (hlong : (d'.bytes f.file).length ≤ Bytes.longest)
    (hloads : t.Safe fun v => d'.source.load v = d.source.load v) {i : Nat}
    (ht : tables[i]? = some (t, columns)) {stored : List Column} (hi : w.columns[i]? = some stored)
    (hok : t.replaceColumns stored = .ok t') : Aligned d' t' := by
  obtain ⟨hadvances, hcontents⟩ := Checkpoint.writeContents_ok hstart hwrite
  obtain ⟨records, hwritten⟩ := hcontents w rfl
  obtain ⟨r, hr, hrecords⟩ := exists_right_of_forall₂ hwritten.each ht
  obtain ⟨-, hall⟩ := getElem?_of_zip_mapM hwritten.each.length_eq hwritten.columns
  obtain ⟨stored', hi', hstored⟩ := hall i _ r ht hr
  obtain rfl := Option.some.inj (hi.symm.trans hi')
  have hheld := h.reached.held.kept hk
  have hyields := hheld.materialize s vectorSize
  rw [hcopy] at hyields
  obtain ⟨hbegins, halike⟩ := hheld.stored hyields hword hf hadvances.whole hlong hrecords hstored
  have hmoved : Aligned d' t := h.move (.disk hloads) fun _ => h.alike.congr hloads
  refine hmoved.move (.reload hbegins hok) fun _ => ?_
  obtain ⟨versions, -, heq⟩ := bind_eq_ok.mp hok
  obtain rfl := Except.ok.inj heq
  exact halike

/-- A new table is one of these. -/
theorem aligned_new {name : String} {definitions : List ColumnDefinition} {policy : SegmentPolicy}
    (hp : 0 < policy.capacity) (hok : Table.new name definitions policy = .ok t) : Aligned d t := by
  refine .begin (reached_new hp hok) ⟨[], 0, fun c hc => ?_⟩
  obtain ⟨columns, hcolumns, hok⟩ := bind_eq_ok.mp hok
  obtain ⟨-, versions, -, rfl⟩ := ofColumns_ok hok
  obtain ⟨definition, -, hnew⟩ := exists_mem_left_of_forall₂ (forall₂_of_mapM_ok hcolumns) hc
  exact Column.trusted_new hnew hp d.source

/-! ## Segments that are not read -/

/-- **Where a verdict rules a segment out,** one filter does. -/
theorem exists_of_pruneFrom {segment : Nat} {filters : List Filter} {verdict : Verdict}
    (hverdict : verdict ≠ .alwaysFalse)
    (h : BoundFilters.pruneFrom t segment verdict filters = .alwaysFalse) :
    ∃ f ∈ filters, ∃ c s, t.columns[f.column]? = some c ∧ c.segments[segment]? = some s ∧
      s.statistics.check f.op f.constant = .alwaysFalse := by
  induction filters generalizing verdict with
  | nil => exact absurd h hverdict
  | cons f rest ih =>
    rw [BoundFilters.pruneFrom] at h
    have hrest : ∀ {v : Verdict}, v ≠ .alwaysFalse →
        BoundFilters.pruneFrom t segment v rest = .alwaysFalse → ∃ g ∈ f :: rest, ∃ c s,
          t.columns[g.column]? = some c ∧ c.segments[segment]? = some s ∧
            s.statistics.check g.op g.constant = .alwaysFalse := fun hv h => by
      obtain ⟨g, hg, hfound⟩ := ih hv h
      exact ⟨g, List.mem_cons_of_mem _ hg, hfound⟩
    split at h
    · cases h
    · rename_i s hs
      obtain ⟨c, hc, hs⟩ := Option.bind_eq_some_iff.mp hs
      split at h
      · rename_i hcheck
        exact ⟨f, List.mem_cons_self, c, s, hc, hs, hcheck⟩
      · exact hrest hverdict h
      · exact hrest (by decide) h

/-- A table whose columns have its rows can be read. -/
theorem Held.legible (h : t.Held source) (hrows : ∀ c ∈ t.columns, c.rows = t.rows) :
    t.Legible source := by
  refine ⟨⟨forall₂_iff_getElem?.mpr ⟨h.columns.length_eq, fun i definition c hd hc => ?_⟩, h.capacity⟩,
    fun c hc => ?_⟩
  · have hcarried := (forall₂_iff_getElem?.mp h.columns).2 i definition c hd hc
    exact ⟨hcarried.legible.sound, hcarried.type_eq, hcarried.policy_eq,
      hrows c (List.mem_of_getElem? hc)⟩
  · obtain ⟨definition, -, hcarried⟩ := exists_mem_left_of_forall₂ h.columns hc
    exact hcarried.legible

/-- **The segments of all columns** are of the same rows. -/
theorem Alike.segment (h : Alike source t.columns) (hsound : t.Sound) {i : Nat} {p : Nat × Nat}
    (hp : t.segmentRanges[i]? = some p) {c : Column} (hc : c ∈ t.columns) {s : Segment}
    (hs : c.segments[i]? = some s) : p = (s.start, s.stop) := by
  obtain ⟨old, base, hall⟩ := h
  have hboundaries : ∀ c ∈ t.columns, c.boundaries = old ++ Column.cut t.policy.capacity base t.rows := by
    intro c hc
    obtain ⟨definition, -, hholds⟩ := exists_mem_left_of_forall₂ hsound.columns hc
    rw [(hall c hc).cut.boundaries_eq (hall c hc).capacity, hholds.policy_eq, hholds.rows_eq]
  obtain ⟨first, more, hcolumns⟩ := List.exists_cons_of_ne_nil (List.ne_nil_of_mem hc)
  have hranges : t.segmentRanges = first.boundaries := by
    rw [segmentRanges, hcolumns]
    rfl
  have hfirst : first ∈ t.columns := hcolumns ▸ List.mem_cons_self
  have hbounds : c.boundaries[i]? = some (s.start, s.stop) := by
    rw [Column.boundaries, List.getElem?_map, hs]
    rfl
  rw [hranges, hboundaries first hfirst, ← hboundaries c hc, hbounds] at hp
  exact (Option.some.inj hp).symm

/-- **No row of a segment that is not read** is admitted. -/
theorem Alike.pruned (h : Alike source t.columns) (hlegible : t.Legible source) {b : BoundFilters}
    (hb : b.Fits t) {i : Nat} {p : Nat × Nat} (hp : t.segmentRanges[i]? = some p)
    (hprune : b.prune t i = .alwaysFalse) {r : Nat} (hlow : p.1 ≤ r) (hhigh : r < p.2)
    {snapshot : Snapshot} {row : Row} (hrow : t.row? source snapshot r = some row) :
    b.admits (fun j => row.getD j .null) = false := by
  rw [BoundFilters.prune] at hprune
  split at hprune
  · rename_i hnever
    rw [BoundFilters.admits, hnever]
    rfl
  obtain ⟨f, hf, c, s, hc, hs, hcheck⟩ := exists_of_pruneFrom (by decide) hprune
  have hmem := List.mem_of_getElem? hc
  obtain rfl := h.segment hlegible.sound hp hmem hs
  obtain ⟨types, htyped, -⟩ := hb
  obtain ⟨k, hk⟩ := List.mem_iff_getElem?.mp hf
  obtain ⟨type, -, htype, hfits⟩ := htyped.type_of_mem hk
  obtain ⟨definition, hd, hcolumn, -⟩ := holds_of_some hlegible.sound hc
  obtain rfl := Option.some.inj (htype.symm.trans hcolumn)
  have hseen : (t.stamps? r).any (·.isVisible snapshot) = true := by
    by_contra hhidden
    rw [row?_of_hidden (Bool.eq_false_iff.mpr hhidden)] at hrow
    cases hrow
  obtain ⟨row', hrow', -, hvalue⟩ := row?_of_visible hlegible hseen
  obtain rfl := Option.some.inj (hrow'.symm.trans hrow)
  have hx := hvalue f.column (List.getElem?_eq_some_iff.mp hd).1
  rw [value_of_some hc] at hx
  obtain ⟨old, base, hall⟩ := h
  have hfails := (hall c hmem).check hs hfits hcheck hlow hhigh hx
  rw [BoundFilters.admits, Bool.and_eq_false_iff]
  refine Or.inr (List.all_eq_false.mpr ⟨f, hf, ?_⟩)
  rw [hfails]
  exact Bool.false_ne_true

/-- **A scan is a reading row by row.**  In a table that can come about, with as many rows in each
column as it has itself, any columns are scanned in any order, with any filters that can be bound to
the table, for any snapshot, any local rows of the reader, and any number of rows at a time, whatever
was read from blocks before.  Unless it is cancelled, and where numbers and memory suffice, the scan
comes to its end.

It lists, under their numbers and in their order, the committed rows that the snapshot sees and whose
values compare with all constants as the filters ask, and then such rows among those of the reader that
are not deleted.  No chunk is empty or larger than asked for, and each has rows of one segment, or of the
reader. -/
theorem Aligned.scan_eq (h : Aligned d t) (hrows : ∀ c ∈ t.columns, c.rows = t.rows)
    {decoded : Decoded} (hk : decoded.Kept d (· ∈ t.stored)) {snapshot : Snapshot}
    {columns : List Nat} {filters : List Filter} {localRows : Option LocalRows} {cancel : CancelFlag}
    {vectorSize : Nat} {s : Scan}
    (hnew : Scan.new t snapshot columns filters localRows cancel vectorSize = .ok s)
    (hlocals : ∀ l, localRows = some l → l.Sound t.types) (hraised : cancel.raised = false)
    (hword : t.rows + max vectorSize 1 < UInt64.size)
    (hroom : Chunk.rowBytes * t.rows ≤ Bytes.longest) :
    ∃ chunks, (s.run (.ofDisk d decoded)).result = .ok (.ok chunks) ∧
      ScanChunk.listing? chunks = some (s.rowByRow (.ofDisk d decoded)) ∧
      ∀ c ∈ chunks, s.Gives c := by
  obtain ⟨bound, hbound, rfl, hcolumns⟩ := Scan.new_ok hnew
  have hheld := h.reached.held.kept hk
  have hlegible := hheld.legible hrows
  have halike : Alike (.ofDisk d decoded) t.columns := h.alike.congr fun _ hv => hk.load_eq hv
  have hfits : ∀ b, bound = some b → b.Fits t := by
    rintro b rfl
    exact BoundFilters.fits_of_bind hbound
  generalize hs : Scan.mk t snapshot columns bound localRows cancel (max vectorSize 1) = s
  have hfair : s.Fair (.ofDisk d decoded) := by
    subst hs
    refine ⟨hlegible, fun hnil => hheld.nonempty ?_, hfits, fun i p hp hskip r hlow hhigh => ?_,
      Nat.lt_of_lt_of_le Nat.zero_lt_one (Nat.le_max_right _ _), hcolumns, hlocals⟩
    · exact List.length_eq_zero_iff.mp (hheld.columns.length_eq.trans
        (List.length_eq_zero_iff.mpr hnil))
    · obtain ⟨b, hb, hprune⟩ := (Option.any_eq_true _ _).mp hskip
      obtain rfl : bound = some b := hb
      refine Option.filter_eq_none_iff.mpr fun row hrow => ?_
      have hfails := halike.pruned hlegible (hfits b rfl) hp (eq_of_beq hprune) hlow hhigh hrow
      exact Bool.eq_false_iff.mp hfails
  obtain ⟨chunks, hrun⟩ := Scan.run_total hfair (by subst hs; exact hraised)
    (by subst hs; exact hword) (by subst hs; exact hroom)
  exact ⟨chunks, hrun, Scan.run_ok hfair hrun⟩

/-- Of the rows 5, 6 and 9 in two segments, only the last one is greater than 6, and the first segment
is not read. -/
example : (do
    let t ← (Table.new "t" [⟨"a", .bigInt⟩] { capacity := 2, compression := .uncompressed }).toOption
    let t := (t.appendRows [[.bigInt 5], [.bigInt 6], [.bigInt 9]] 1).2
    let s ← (Scan.new t .committed [0] [⟨0, .greaterThan, .bigInt 6⟩] none {} 2).toOption
    let chunks ← (s.run (.ofDisk {} [])).result.toOption >>= Except.toOption
    some (s.plan, chunks.flatMap (·.ids))) = some ([(2, 1)], [2]) := by
  decide +kernel

end Table
end ColumnStore
