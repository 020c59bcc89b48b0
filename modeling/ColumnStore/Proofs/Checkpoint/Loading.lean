/-
# Loading a checkpoint

Columns that are loaded from a checkpoint have no updates, and every snapshot sees all rows of its
tables.  What the manifest leads to stays what it is as long as its files do
(`Checkpoint.Anchors.of_same`), and what is loaded from there is settled
(`Checkpoint.Anchors.loadCheckpoint`).
-/

import ColumnStore.Proofs.Checkpoint.Files
import ColumnStore.Proofs.Database.Settled
import ColumnStore.Proofs.Disk.Blocks
import ColumnStore.Proofs.Disk.Names

namespace ColumnStore

/-! ## Columns of stored segments -/

namespace Column

/-- A column without updates, the values of which are in a block file. -/
structure StoredIn (blocks : BlockFile) (type : ColumnType) (policy : SegmentPolicy) (c : Column) :
    Prop where
  sound : c.Sound
  type_eq : c.type = type
  policy_eq : c.policy = policy
  chain_eq : ∀ r, c.chain r = []
  stored_in : ∀ v ∈ c.stored, v.blocks = blocks

end Column

/-- **The column of some records.** -/
theorem SegmentRecord.toColumn_ok {blocks : BlockFile} {policy : SegmentPolicy} {type : ColumnType}
    {place : List Nat} {records : List SegmentRecord} {c : Column} (ht : type.isNested = false)
    (hok : toColumn blocks policy type place records = .ok c) :
    Column.StoredIn blocks type policy c ∧ c.segments =
      records.mapIdx fun i r => r.toSegment blocks type (place ++ [i]) := by
  obtain ⟨rows, hrows, hc⟩ := bind_eq_ok.mp hok
  obtain rfl := Except.ok.inj hc
  have hsegment : ∀ s ∈ records.mapIdx (fun i r => r.toSegment blocks type (place ++ [i])),
      ∃ r i, s = toSegment r blocks type (place ++ [i]) := by
    intro s hs
    obtain ⟨i, hi, rfl⟩ := List.mem_mapIdx.mp hs
    exact ⟨_, _, rfl⟩
  have hsound : Column.Sound ⟨type, policy,
      records.mapIdx fun i r => r.toSegment blocks type (place ++ [i]), rows⟩ := by
    refine ⟨ht, Column.contiguous_of_rowsFrom hrows, fun s hs => ?_⟩
    obtain ⟨r, i, rfl⟩ := hsegment s hs
    exact ⟨⟨List.Pairwise.nil, fun _ _ => rfl, rfl, rfl⟩, rfl⟩
  refine ⟨⟨hsound, rfl, rfl, fun r => ?_, fun v hv => ?_⟩, rfl⟩
  · rcases Nat.lt_or_ge r rows with hr | hr
    · obtain ⟨i, s, hl, hs, -⟩ := Column.locate_of_lt hsound hr
      obtain ⟨x, j, rfl⟩ := hsegment s (List.mem_of_getElem? hs)
      rw [Column.chain, hl]
      rfl
    · exact Column.chain_of_le hr
  · obtain ⟨s, hs, hv⟩ := List.mem_filterMap.mp hv
    obtain ⟨x, j, rfl⟩ := hsegment s hs
    obtain rfl := Option.some.inj hv
    rfl

/-! ## Tables -/

/-- A record of a table that can be made. -/
structure TableRecord.Plain (r : TableRecord) : Prop where
  types : ∀ d ∈ r.definitions, d.type.isNested = false
  width : r.definitions.length < UInt64.size

/-- A table all rows of which everybody sees, with its values in a block file. -/
structure Table.StoredIn (blocks : BlockFile) (policy : SegmentPolicy) (t : Table) : Prop where
  sound : t.Sound
  policy_eq : t.policy = policy
  dropped_eq : t.dropped = false
  stamps : ∀ r st, t.stamps? r = some st → st = { inserted := 0 }
  chain_eq : ∀ i r, t.chain i r = []
  stored_in : ∀ v ∈ t.stored, v.blocks = blocks

theorem Table.StoredIn.settled {blocks : BlockFile} {policy : SegmentPolicy} {t : Table}
    (h : t.StoredIn blocks policy) {safe : StoredValues → Prop}
    (hsafe : ∀ v : StoredValues, v.blocks = blocks → safe v) (last : Stamp) : t.Settled safe last :=
  settled_of_committed h.stamps h.chain_eq (fun v hv => hsafe v (h.stored_in v hv)) last

/-- **A table of stored columns.** -/
theorem Table.storedIn_of_columns {blocks : BlockFile} {policy : SegmentPolicy} {t : Table}
    (hp : 0 < policy.capacity) (hpolicy : t.policy = policy) (hdropped : t.dropped = false)
    {name : String} (hversions : loadedVersions name t.columns t.definitions.length = .ok t.versions)
    (hcolumns : List.Forall₂ (fun d c => Column.StoredIn blocks d.type policy c) t.definitions
      t.columns) : t.StoredIn blocks policy := by
  obtain ⟨-, hrows, -, hcommitted⟩ := loadedVersions_ok hversions
  have hcolumn : ∀ c ∈ t.columns, ∃ d, Column.StoredIn blocks d policy c := by
    intro c hc
    obtain ⟨i, hi, rfl⟩ := List.mem_iff_getElem.mp hc
    exact ⟨_, (List.forall₂_iff_get.mp hcolumns).2 i (hcolumns.length_eq ▸ hi) hi⟩
  refine ⟨⟨?_, hpolicy ▸ hp⟩, hpolicy, hdropped, fun r st hst => ?_, fun i r => ?_, fun v hv => ?_⟩
  · rw [List.forall₂_iff_get] at hcolumns ⊢
    refine ⟨hcolumns.1, fun i hi hi' => ?_⟩
    have hc := hcolumns.2 i hi hi'
    exact ⟨hc.sound, hc.type_eq, hc.policy_eq.trans hpolicy.symm, hrows _ (List.get_mem _ _)⟩
  · rw [Table.stamps?, hcommitted, Array.getElem?_replicate] at hst
    split at hst
    · exact (Option.some.inj hst).symm
    · cases hst
  · cases hc : t.columns[i]? with
    | none => exact chain_of_none hc r
    | some c =>
      obtain ⟨d, hd⟩ := hcolumn c (List.mem_of_getElem? hc)
      rw [chain_of_some hc]
      exact hd.chain_eq r
  · obtain ⟨c, hc, hv⟩ := List.mem_flatMap.mp hv
    obtain ⟨d, hd⟩ := hcolumn c hc
    exact hd.stored_in v hv

namespace Checkpoint

variable {d d' : Disk} {policy : SegmentPolicy}

/-- **A table that is loaded** is as it was recorded. -/
theorem loadTable_ok {blocks : BlockFile} {number : Nat} {r : TableRecord} {t : Table}
    (hp : 0 < policy.capacity) (hr : r.Plain) (hok : loadTable blocks policy number r = .ok t) :
    t.StoredIn blocks policy ∧ t.definitions = r.definitions := by
  unfold loadTable at hok
  split at hok
  · cases hok
  rename_i hlen
  rw [not_not] at hlen
  obtain ⟨columns, hcolumns, ht⟩ := bind_eq_ok.mp hok
  obtain ⟨-, versions, hversions, rfl⟩ := Table.ofColumns_ok ht
  refine ⟨Table.storedIn_of_columns hp rfl rfl hversions ?_, rfl⟩
  obtain ⟨hlength, hall⟩ := getElem?_of_zip_mapM hlen.symm hcolumns
  refine forall₂_iff_getElem?.mpr ⟨hlength.symm, fun i d c hd hc => ?_⟩
  have hi : i < r.segments.length := hlen ▸ (List.getElem?_eq_some_iff.mp hd).1
  obtain ⟨c', hc', hone⟩ := hall i d _ hd (List.getElem?_eq_getElem hi)
  obtain rfl := Option.some.inj (hc.symm.trans hc')
  obtain ⟨c₁, hc₁, hone⟩ := bind_eq_ok.mp hone
  split at hone
  · cases hone
  · rw [← Except.ok.inj hone]
    exact (SegmentRecord.toColumn_ok (hr.types _ (List.mem_of_getElem? hd)) hc₁).1

/-- **Tables with names of their own make a catalog.** -/
theorem insertTables_ok {safe : StoredValues → Prop} {last : Stamp} {c c' : Catalog}
    {tables : List Table} (h : c.Settled policy safe last)
    (ht : ∀ t ∈ tables, t.Sound ∧ t.definitions.length < UInt64.size ∧ t.dropped = false ∧
      t.policy = policy ∧ t.Settled safe last)
    (hok : Database.insertTables c tables = .ok c') : c'.Settled policy safe last := by
  induction tables generalizing c with
  | nil => exact Except.ok.inj hok ▸ h
  | cons t rest ih =>
    obtain ⟨⟨id, c₁⟩, hinsert, hok⟩ := bind_eq_ok.mp hok
    obtain ⟨hs, hwidth, hdropped, hpolicy, hsettled⟩ := ht t List.mem_cons_self
    exact ih (h.insert hs hwidth hdropped hpolicy hsettled hinsert)
      (fun u hu => ht u (List.mem_cons_of_mem _ hu)) hok

/-! ## What is installed -/

/-- Metadata of tables that can be made, with commits up to a time. -/
def Describes (last : Stamp) (b : Bytes) : Prop :=
  ∃ x rest, Coder.metadata.decode b = some (x, rest) ∧ x.lastCommit ≤ last ∧
    ∀ r ∈ x.tables, r.Plain

/-- A disk on which the checkpoint with a number is installed, apart from the file of the log: either
there is no manifest, or it names a block file with metadata. -/
inductive Anchors (d : Disk) (log : FileId) (n : Nat) (last : Stamp) : Prop
  | nothing (h : d.entry? [Manifest.path] = none) (hn : n = 0)
  | installed (m : Manifest) (file blocks : FileId)
      (hentry : d.entry? [Manifest.path] = some (.file file)) (hfile : file ≠ log)
      (hparse : Manifest.parse? (d.bytes file) = some m) (hn : n < UInt64.size)
      (hiteration : m.iteration = n) (hname : m.file = fileName n)
      (hblocks : d.entry? [fileName n] = some (.file blocks)) (hother : blocks ≠ log)
      (hdescribes : ∀ (f : BlockFile) (b : Bytes), BlockFile.OpenedAt d (fileName n) f →
        f.read d m.metadata = .ok b → Describes last b)

/-- The names of what is installed, and the bytes of its files, are the same on two disks.  A draft of
a manifest does not matter. -/
structure SameInstalled (d d' : Disk) (log : FileId) (n : Nat) : Prop where
  manifest : d'.entry? [Manifest.path] = d.entry? [Manifest.path]
  name : n < UInt64.size → d'.entry? [fileName n] = d.entry? [fileName n]
  bytes : ∀ name file, name ≠ Manifest.draftPath → d.entry? [name] = some (.file file) →
    file ≠ log → d'.bytes file = d.bytes file

namespace SameInstalled

variable {log file : FileId} {n : Nat}

theorem of_grows (hd : d.Whole) (hmanifest : d'.entry? [Manifest.path] = d.entry? [Manifest.path])
    (hname : n < UInt64.size → d'.entry? [fileName n] = d.entry? [fileName n])
    (hgrows : d.Grows log d') : SameInstalled d d' log n :=
  ⟨hmanifest, hname, fun _ file _ hentry hne => hgrows.bytes_eq file (hd _ file hentry) hne⟩

theorem bytes_manifest (h : SameInstalled d d' log n) (hentry : d.entry? [Manifest.path] = some (.file file))
    (hne : file ≠ log) : d'.bytes file = d.bytes file := h.bytes _ file (by decide) hentry hne

theorem bytes_blocks (h : SameInstalled d d' log n) (hn : n < UInt64.size)
    (hentry : d.entry? [fileName n] = some (.file file)) (hne : file ≠ log) :
    d'.bytes file = d.bytes file :=
  h.bytes _ file (name_of_iterationOf? (iterationOf?_fileName hn)).2.2.2.2.1 hentry hne

end SameInstalled

namespace Anchors

variable {log : FileId} {n : Nat} {last last' : Stamp}

theorem mono (h : Anchors d log n last) (hle : last ≤ last') : Anchors d log n last' := by
  cases h with
  | nothing h hn => exact .nothing h hn
  | installed m file blocks hentry hfile hparse hn hiteration hname hblocks hother hdescribes =>
    refine .installed m file blocks hentry hfile hparse hn hiteration hname hblocks hother
      fun f b hf hb => ?_
    obtain ⟨x, rest, hx, hlast, htables⟩ := hdescribes f b hf hb
    exact ⟨x, rest, hx, Nat.le_trans hlast hle, htables⟩

/-- **What is installed stays** while its names and its files do. -/
theorem of_same (h : Anchors d log n last) (hs : SameInstalled d d' log n) :
    Anchors d' log n last := by
  cases h with
  | nothing h hn => exact .nothing (hs.manifest.trans h) hn
  | installed m file blocks hentry hfile hparse hn hiteration hfileName hblocks hother hdescribes =>
    have hplain := plain_fileName hn
    refine .installed m file blocks (hs.manifest.trans hentry) hfile ?_ hn hiteration hfileName
      ((hs.name hn).trans hblocks) hother fun f b hf hb => ?_
    · rw [hs.bytes_manifest hentry hfile]
      exact hparse
    · have hentry' := hplain.find_eq_ok.mp hf.find
      obtain rfl : blocks = f.file := by
        rw [hs.name hn, hblocks] at hentry'
        exact DiskEntry.file.inj (Option.some.inj hentry')
      have hsame := hs.bytes_blocks hn hblocks hother
      refine hdescribes f b ⟨hplain.find_eq_ok.mpr hblocks, ?_, hf.path_eq, hf.least, ?_, hf.readable⟩ ?_
      · rw [← hsame]
        exact hf.header
      · rw [← hsame]
        exact hf.length_eq
      · rw [BlockFile.read, ← hsame]
        exact hb

/-- **What is loaded stays** while the names and the files of what is installed do. -/
theorem loadCheckpoint_same (h : Anchors d log n last) (hs : SameInstalled d d' log n)
    {r : Catalog × Nat × Stamp} (hok : Database.loadCheckpoint d policy = .ok r) :
    Database.loadCheckpoint d' policy = .ok r := by
  obtain ⟨loaded, hl, hok⟩ := bind_eq_ok.mp hok
  obtain ⟨manifest, hm, hl⟩ := bind_eq_ok.mp hl
  rw [currentManifest, plain_manifest.contains_eq] at hm
  suffices hload : load d' policy = .ok loaded by
    rw [Database.loadCheckpoint, hload]
    exact hok
  cases h with
  | nothing h hn =>
    rw [h, Option.isSome_none, if_neg Bool.false_ne_true] at hm
    obtain rfl := Except.ok.inj hm
    have hnone : currentManifest d' = .ok none := by
      rw [currentManifest, plain_manifest.contains_eq, hs.manifest, h, Option.isSome_none,
        if_neg Bool.false_ne_true]
      rfl
    rw [load, hnone]
    exact hl
  | installed m file blocks hentry hfile hparse hn hiteration hname hblocks hother hdescribes =>
    have hentry' := hs.manifest.trans hentry
    have hsome : currentManifest d' = .ok manifest := by
      rw [hentry, Option.isSome_some, if_pos rfl,
        Disk.read_of_find (plain_manifest.find_eq_ok.mpr hentry)] at hm
      rw [currentManifest, plain_manifest.contains_eq, hentry', Option.isSome_some, if_pos rfl,
        Disk.read_of_find (plain_manifest.find_eq_ok.mpr hentry'), hs.bytes_manifest hentry hfile]
      exact hm
    rw [hentry, Option.isSome_some, if_pos rfl,
      Disk.read_of_find (plain_manifest.find_eq_ok.mpr hentry), mapError_ok, ok_bind, hparse] at hm
    obtain rfl := Except.ok.inj hm
    obtain ⟨x, hx, hl⟩ := bind_eq_ok.mp hl
    obtain ⟨f, hopen, hx⟩ := bind_eq_ok.mp hx
    have hf : BlockFile.OpenedAt d (fileName n) f := hname ▸ BlockFile.openFile_ok.mp hopen
    have hplain := plain_fileName hn
    obtain rfl : blocks = f.file := by
      have hfound := hplain.find_eq_ok.mp hf.find
      rw [hblocks] at hfound
      exact DiskEntry.file.inj (Option.some.inj hfound)
    have hsame := hs.bytes_blocks hn hblocks hother
    have hopen' : BlockFile.openFile d' m.file = .ok f := by
      rw [hname]
      refine BlockFile.openFile_ok.mpr ⟨hplain.find_eq_ok.mpr ((hs.name hn).trans hblocks), ?_,
        hf.path_eq, hf.least, ?_, hf.readable⟩
      · rw [hsame]
        exact hf.header
      · rw [hsame]
        exact hf.length_eq
    have hread : f.read d' m.metadata = f.read d m.metadata := by
      rw [BlockFile.read, BlockFile.read, hsame]
    rw [load, hsome, ok_bind]
    refine bind_eq_ok.mpr ⟨x, ?_, hl⟩
    rw [loadNamed, hopen', ok_bind, hread]
    exact hx

/-- **What is loaded from an installed checkpoint is settled.** -/
theorem loadCheckpoint (h : Anchors d log n last) (hp : 0 < policy.capacity) {c : Catalog}
    {n' : Nat} {last' : Stamp} (hok : Database.loadCheckpoint d policy = .ok (c, n', last')) :
    n' = n ∧ last' ≤ last ∧ c.Settled policy (fun v => v.blocks.file ≠ log) 0 ∧
      Anchors d log n last' := by
  obtain ⟨loaded, hl, hok⟩ := bind_eq_ok.mp hok
  obtain ⟨manifest, hm, hl⟩ := bind_eq_ok.mp hl
  rw [currentManifest, plain_manifest.contains_eq] at hm
  cases h with
  | nothing h hn =>
    rw [h, Option.isSome_none, if_neg Bool.false_ne_true] at hm
    obtain rfl := Except.ok.inj hm
    obtain rfl := Except.ok.inj hl
    obtain ⟨rfl, heq⟩ := Prod.mk.inj (Except.ok.inj hok)
    obtain ⟨rfl, rfl⟩ := Prod.mk.inj heq
    exact ⟨hn.symm, Nat.zero_le _, Catalog.settled_empty .., .nothing h hn⟩
  | installed m file blocks hentry hfile hparse hn hiteration hname hblocks hother hdescribes =>
    rw [hentry, Option.isSome_some, if_pos rfl,
      Disk.read_of_find (plain_manifest.find_eq_ok.mpr hentry), mapError_ok, ok_bind, hparse] at hm
    obtain rfl := Except.ok.inj hm
    obtain ⟨x, hx, hl⟩ := bind_eq_ok.mp hl
    obtain rfl := Except.ok.inj hl
    obtain ⟨f, hopen, hx⟩ := bind_eq_ok.mp hx
    obtain ⟨b, hb, hx⟩ := bind_eq_ok.mp hx
    have hf : BlockFile.OpenedAt d (fileName n) f := hname ▸ BlockFile.openFile_ok.mp hopen
    obtain ⟨y, rest, hy, hlast, htables⟩ := hdescribes f b hf hb
    rw [hy] at hx
    dsimp only at hx
    split at hx
    · cases hx
    rename_i hsame
    rw [not_not] at hsame
    obtain ⟨tables, htab, hx⟩ := bind_eq_ok.mp hx
    obtain rfl := Except.ok.inj hx
    obtain ⟨catalog, hinsert, hok⟩ := bind_eq_ok.mp hok
    obtain ⟨rfl, heq⟩ := Prod.mk.inj (Except.ok.inj hok)
    obtain ⟨rfl, rfl⟩ := Prod.mk.inj heq
    have hblock : f.file = blocks := by
      have := (plain_fileName hn).find_eq_ok.mp hf.find
      rw [hblocks] at this
      exact (DiskEntry.file.inj (Option.some.inj this)).symm
    refine ⟨hsame.trans hiteration, hlast,
      insertTables_ok (Catalog.settled_empty ..) (fun t ht => ?_) hinsert,
      .installed m file blocks hentry hfile hparse hn hiteration hname hblocks hother
        fun f' b' hf' hb' => ?_⟩
    swap
    · obtain rfl := Except.ok.inj ((BlockFile.openFile_ok.mpr hf').symm.trans (hname ▸ hopen))
      obtain rfl := Except.ok.inj (hb'.symm.trans hb)
      exact ⟨y, rest, hy, Nat.le_refl _, htables⟩
    obtain ⟨j, hj, rfl⟩ := List.mem_iff_getElem.mp ht
    have hall := forall₂_of_mapM_ok htab
    have hj' : j < y.tables.length := by
      rw [← List.length_zipIdx (i := 0), hall.length_eq]
      exact hj
    have hload := (List.forall₂_iff_get.mp hall).2 j (hall.length_eq ▸ hj) hj
    rw [List.get_eq_getElem, List.getElem_zipIdx] at hload
    have hplain := htables _ (List.getElem_mem hj')
    obtain ⟨hstored, hdefs⟩ := loadTable_ok hp hplain hload
    exact ⟨hstored.sound, hdefs ▸ hplain.width, hstored.dropped_eq, hstored.policy_eq,
      hstored.settled (fun v hv => by rw [hv, hblock]; exact hother) 0⟩

end Anchors
end Checkpoint
end ColumnStore
