/-
# Checkpoints of a steady system

The rows that everybody sees are copied to a file of their own, and the tables go on with the columns
in that file.  Whether the checkpoint is taken or refused, the system is left steady
(`System.Steady.checkpoint`).
-/

import ColumnStore.Proofs.Checkpoint.Manifest
import ColumnStore.Proofs.Database.Durability
import ColumnStore.Proofs.Database.Growing
import ColumnStore.Proofs.Database.Reading

namespace ColumnStore

/-! ## Names of files -/

/-- The name of the file of a checkpoint stands in a manifest as it is. -/
theorem Checkpoint.isPlain_fileName {n : Nat} (h : n < UInt64.size) :
    ∀ c ∈ (fileName n).toList, Json.IsPlain c := by
  have hdigit : ∀ c : Char, c.isDigit = true → Json.IsPlain c := by
    intro c hc
    have hrange : 48 ≤ c.toNat ∧ c.toNat ≤ 57 := by
      obtain ⟨hlo, hhi⟩ := Bool.and_eq_true_iff.mp hc
      exact ⟨of_decide_eq_true hlo, of_decide_eq_true hhi⟩
    refine ⟨?_, ?_, by omega, by omega⟩
    · rintro rfl
      exact absurd hrange.1 (by decide)
    · rintro rfl
      exact absurd hrange.2 (by decide)
  have hfixed : ∀ c ∈ (namePrefix ++ nameSuffix).toList, Json.IsPlain c :=
    Json.isPlain_of_all (by decide +kernel)
  intro c hc
  rcases chars_of_iterationOf? (iterationOf?_fileName h) c hc with hc | hc | rfl
  · exact hfixed c hc
  · exact hdigit c hc
  · decide

/-- **When the log is emptied and other checkpoints are deleted,** the other files stay. -/
theorem LogWriter.grows_cleanup (w : LogWriter) {d : Disk} (hd : d.Whole) {keep : Nat}
    {stale : List String}
    (hstale : ∀ name ∈ stale, ∃ n, Checkpoint.iterationOf? name = some n ∧ n ≠ keep) :
    d.Grows w.file (Checkpoint.deleteAll (w.truncate d).2 stale) := by
  have hsame : Disk.SameBut w.file d (w.truncate d).2 := .setLength ..
  obtain ⟨-, -, hcontents, -⟩ := Checkpoint.deleteAll_ok (hd.sameBut hsame) hstale 0
  exact (Disk.Grows.sameBut hsame).trans (.of_contents hcontents _)

/-! ## Tables with a name -/

/-- **Every table has one name.** -/
theorem Catalog.Sound.ids_nodup {c : Catalog} (h : c.Sound) : c.ids.Nodup := by
  refine List.Nodup.map_on (fun p hp q hq hid => ?_) (List.Nodup.of_map _ h.names_nodup)
  obtain ⟨t, ht, hname, -⟩ := h.named p.1 p.2 hp
  obtain ⟨u, hu, hname', -⟩ := h.named q.1 q.2 hq
  rw [hid, hu] at ht
  obtain rfl := Option.some.inj ht
  exact Prod.ext (hname.symm.trans hname') hid

/-- A catalog in which tables go on with other columns. -/
structure Catalog.Adopts (changes : List (TableId × List Column)) (c c' : Catalog) : Prop where
  names_eq : c'.names = c.names
  tables : ∀ (id : Nat) (t' : Table), c'.tables[id]? = some t' →
    (id ∉ changes.map (·.1) ∧ c.tables[id]? = some t') ∨
      ∃ columns t, (id, columns) ∈ changes ∧ c.tables[id]? = some t ∧
        t.replaceColumns columns = .ok t'

/-- A table and the columns in a block file with which it can go on. -/
def Catalog.GoesOn (c : Catalog) (f : BlockFile) (id : TableId) (columns : List Column) : Prop :=
  ∃ t t', c.tables[id]? = some t ∧ t.replaceColumns columns = .ok t' ∧ t.Continues t' ∧
    t'.StoredIn f t.policy

/-! ## Copies of the tables -/

namespace Database

theorem materializeTables_ok {source : Source} {s : Snapshot} {vectorSize : Nat} {ts : List Table}
    {tables : List (Table × List Column)}
    (hok : (materializeTables s vectorSize source ts).result = .ok tables) :
    List.Forall₂ (fun t p => p.1 = t ∧ (t.materialize source s vectorSize).result = .ok p.2) ts
      tables := by
  induction ts generalizing tables with
  | nil =>
    obtain rfl := Except.ok.inj hok
    exact .nil
  | cons t rest ih =>
    rw [materializeTables] at hok
    simp only [Reading.result_bind] at hok
    obtain ⟨columns, hcolumns, hok⟩ := bind_eq_ok.mp hok
    obtain ⟨more, hmore, hok⟩ := bind_eq_ok.mp hok
    obtain rfl := Except.ok.inj hok
    exact .cons ⟨rfl, hcolumns⟩ (ih hmore)

theorem honest_materializeTables {source : Source} {safe : StoredValues → Prop} {s : Snapshot}
    {ts : List Table} (h : ∀ t ∈ ts, t.Safe safe) (vectorSize : Nat) :
    (materializeTables s vectorSize source ts).Honest source safe := by
  induction ts with
  | nil => exact Reading.honest_pure _
  | cons t rest ih =>
    refine Reading.honest_bind (Table.honest_materialize (h t List.mem_cons_self) _) fun _ _ => ?_
    exact Reading.honest_bind (ih fun t ht => h t (List.mem_cons_of_mem _ ht)) fun _ _ =>
      Reading.honest_pure _

variable {db : Database}

/-- **The disk of an idle database may grow.** -/
theorem Idle.grows (h : db.Idle) {d' : Disk} (hg : db.disk.Grows db.log.file d') :
    Idle { db with disk := d' } where
  catalog := h.catalog
  last_lt := h.last_lt
  next_ge := h.next_ge
  next_le := h.next_le
  active := h.active
  kept := h.kept.keeps (hg.keeps fun _ => id)

/-- No table has more rows than a list of stamps can hold. -/
def Short (db : Database) : Prop := ∀ (id : Nat) (t : Table), db.catalog.tables[id]? = some t →
  RowVersions.stampBytes * t.rows ≤ Bytes.longest

/-- The tables that have a name. -/
theorem Idle.named (h : db.Idle) {id : TableId} (hid : id ∈ db.catalog.ids) :
    ∃ t, db.catalog.tables[id]? = some t ∧ t.dropped = false ∧ db.catalog.table id = t := by
  obtain ⟨⟨name, id'⟩, hm, rfl⟩ := List.mem_map.mp hid
  obtain ⟨t, ht, -, hdropped⟩ := h.catalog.sound.named name id' hm
  exact ⟨t, ht, hdropped, Catalog.table_of_some ht⟩

/-- Copies of all tables that have a name. -/
def Copies (db : Database) (tables : List (Table × List Column)) : Prop :=
  List.Forall₂ (fun id p => ∃ t, db.catalog.tables[id]? = some t ∧ t.dropped = false ∧ p.1 = t ∧
    Checkpoint.Copied db.source t p.2) db.catalog.ids tables

theorem Copies.copied {tables : List (Table × List Column)} (h : db.Copies tables) :
    ∀ p ∈ tables, Checkpoint.Copied db.source p.1 p.2 := by
  intro p hp
  obtain ⟨id, -, t, -, -, heq, hcopied⟩ := exists_mem_left_of_forall₂ h hp
  exact heq ▸ hcopied

/-- **The copies of the tables** of an idle database. -/
theorem Idle.materialize (h : db.Idle) (hr : db.Readable) (hshort : db.Short) {vectorSize : Nat}
    {r : Except StorageError (List (Table × List Column))} {db' : Database}
    (hok : db.materialize .committed vectorSize = (r, db')) :
    (∃ decoded, db' = { db with decoded }) ∧ db'.Idle ∧ ∀ tables, r = .ok tables →
      db.Copies tables := by
  have hhonest : (materializeTables .committed vectorSize db.source
      (db.catalog.ids.map db.catalog.table)).Honest db.source db.SafeFile := by
    refine honest_materializeTables (fun t ht => ?_) _
    obtain ⟨id, hid, rfl⟩ := List.mem_map.mp ht
    obtain ⟨t, ht, -, heq⟩ := h.named hid
    exact heq ▸ (h.catalog.tables id t ht).2.safe
  obtain ⟨rfl, rfl⟩ := Prod.mk.inj hok
  refine ⟨⟨_, rfl⟩, ⟨h.catalog, h.last_lt, h.next_ge, h.next_le, h.active,
    Reading.Honest.kept hhonest h.kept⟩, fun tables htables => ?_⟩
  have hall := materializeTables_ok htables
  rw [List.forall₂_map_left_iff, List.forall₂_iff_get] at hall
  rw [Copies, List.forall₂_iff_get]
  refine ⟨hall.1, fun i hi hi' => ?_⟩
  obtain ⟨heq, hcopy⟩ := hall.2 i hi hi'
  obtain ⟨t, ht, hdropped, htable⟩ := h.named (List.get_mem db.catalog.ids ⟨i, hi⟩)
  rw [htable] at heq hcopy
  exact ⟨t, ht, hdropped, heq, (h.catalog.sound.tables _ t ht).1, (h.catalog.sound.tables _ t ht).2,
    hshort _ t ht, Table.materialize_ok ((h.sound hr).legible ht) hcopy⟩

/-! ## Going on with other columns -/

/-- **Tables go on with other columns.** -/
theorem adoptColumns_ok {f : BlockFile} (db : Database) {last : Stamp}
    {changes : List (TableId × List Column)} (h : db.catalog.Settled db.policy db.SafeFile last)
    (hf : f.file ≠ db.log.file) (hnodup : (changes.map (·.1)).Nodup)
    (hall : ∀ p ∈ changes, db.catalog.GoesOn f p.1 p.2) :
    ∃ c, db.adoptColumns changes = (.ok (), { db with catalog := c }) ∧
      c.Settled db.policy db.SafeFile last ∧ db.catalog.Adopts changes c := by
  induction changes generalizing db with
  | nil => exact ⟨db.catalog, rfl, h, rfl, fun _ _ ht => Or.inl ⟨List.not_mem_nil, ht⟩⟩
  | cons p rest ih =>
    obtain ⟨id, columns⟩ := p
    obtain ⟨t, t', ht, hreplace, hcontinues, hstored⟩ := hall _ List.mem_cons_self
    rw [List.map_cons, List.nodup_cons] at hnodup
    have hset := h.setTable ht hcontinues (hstored.settled
      (fun v hv => by rw [SafeFile, hv]; exact hf) last)
    have hone : db.adoptColumns ((id, columns) :: rest) =
        adoptColumns { db with catalog := db.catalog.setTable id t' } rest := by
      rw [adoptColumns, Catalog.table_of_some ht, hreplace]
    have hbefore : ∀ (j : Nat) (u : Table), j ≠ id →
        (db.catalog.setTable id t').tables[j]? = some u → db.catalog.tables[j]? = some u := by
      intro j u hj hu
      rwa [Catalog.tables_setTable ht, if_neg hj] at hu
    rw [hone]
    obtain ⟨c, hc, hsettled, hnames, htables⟩ := ih { db with catalog := db.catalog.setTable id t' }
      hset hf hnodup.2 fun q hq => by
        obtain ⟨u, u', hu, hmore⟩ := hall q (List.mem_cons_of_mem _ hq)
        refine ⟨u, u', ?_, hmore⟩
        have hne : q.1 ≠ id := fun heq => hnodup.1 (heq ▸ List.mem_map.mpr ⟨q, hq, rfl⟩)
        rw [Catalog.tables_setTable ht, if_neg hne, hu]
    refine ⟨c, hc, hsettled, hnames, fun j u hu => ?_⟩
    rcases htables j u hu with ⟨hj, hu⟩ | ⟨columns', v, hm, hv, hreplace'⟩
    · by_cases heq : j = id
      · subst heq
        dsimp only at hu
        rw [Catalog.tables_setTable ht, if_pos rfl] at hu
        obtain rfl := Option.some.inj hu
        exact Or.inr ⟨columns, t, List.mem_cons_self, ht, hreplace⟩
      · refine Or.inl ⟨fun hm => ?_, hbefore j u heq hu⟩
        rcases List.mem_cons.mp hm with hm | hm
        · exact heq hm
        · exact hj hm
    · have hne : j ≠ id := fun heq =>
        hnodup.1 (heq ▸ List.mem_map.mpr ⟨(j, columns'), hm, rfl⟩)
      exact Or.inr ⟨columns', v, List.mem_cons_of_mem _ hm, hbefore j v hne hv, hreplace'⟩

/-! ## Writing -/

/-- A checkpoint of a database that is written to a block file, with columns for all tables. -/
structure Wrote (db : Database) (n : Nat) (w : WrittenCheckpoint) (f : BlockFile) (d : Disk) :
    Prop where
  whole : f.Whole d
  path_eq : f.path = Checkpoint.fileName n
  fresh : f.file = db.disk.contents.size
  entry : d.entry? [Checkpoint.fileName n] = some (.file f.file)
  header : Bytes.padTo BlockFile.headerArea (FileHeader.ofKind .blockFile f.blockSize).encode <+:
    d.bytes f.file
  iteration_eq : w.manifest.iteration = n
  file_eq : w.manifest.file = Checkpoint.fileName n
  columns : List.Forall₂ (db.catalog.GoesOn f) db.catalog.ids w.columns
  metadata : (d.bytes f.file).length ≤ Bytes.longest → w.manifest.metadata.Wordy ∧
    ∀ b, f.read d w.manifest.metadata = .ok b → Checkpoint.Describes db.lastCommit b
  copies : ∃ tables records, Checkpoint.Written db.policy n db.lastCommit tables (f, d) w records ∧
    db.Copies tables

/-- **Writing a checkpoint** takes nothing away but the file of that name. -/
theorem Idle.writeCheckpoint (h : db.Idle) (hr : db.Readable) (hshort : db.Short) {n : Nat}
    (hn : n < UInt64.size) (hd : db.disk.Whole) {vectorSize : Nat}
    {r : Except StorageError WrittenCheckpoint} {db' : Database}
    (hok : db.writeCheckpoint n db.lastCommit .committed vectorSize = (r, db')) :
    (∃ decoded disk, db' = { db with decoded, disk }) ∧ db'.Idle ∧
      (∀ file, Checkpoint.Spares [Checkpoint.fileName n] file db.disk db'.disk) ∧
      db.disk.KeepsNames db'.disk ∧ ∀ w, r = .ok w → ∃ f, db.Wrote n w f db'.disk := by
  rw [Database.writeCheckpoint] at hok
  rcases hm : db.materialize .committed vectorSize with ⟨r₁, db₁⟩
  rw [hm] at hok
  obtain ⟨⟨decoded, rfl⟩, hidle, htables⟩ := h.materialize hr hshort hm
  cases r₁ with
  | error e =>
    rw [Attempt.andThen_error] at hok
    obtain ⟨rfl, rfl⟩ := Prod.mk.inj hok
    exact ⟨⟨decoded, db.disk, rfl⟩, hidle, fun file => .refl hd _ file, .refl _,
      fun w hw => by cases hw⟩
  | ok tables =>
    rw [Attempt.andThen_ok] at hok
    dsimp only at hok
    rcases hw : Checkpoint.write db.disk db.blockSize db.policy n db.lastCommit tables with ⟨r₂, d⟩
    rw [hw] at hok
    obtain ⟨rfl, rfl⟩ := Prod.mk.inj hok
    have hspares := fun file => (Checkpoint.write_ok hn hd hw file).1
    obtain ⟨-, hnames, hwrote⟩ := Checkpoint.write_ok hn hd hw 0
    refine ⟨⟨decoded, d, rfl⟩, hidle.grows (hspares _).grows, hspares, hnames, fun w hr => ?_⟩
    obtain ⟨f, records, hwritten, hwhole, hpath, hfile, hsize, hentry, hheader⟩ := hwrote w hr
    have hcopies := htables tables rfl
    have hall := hcopies
    rw [Copies] at hall
    have hlast : db.lastCommit < UInt64.size := Nat.lt_trans h.last_lt (by decide)
    refine ⟨f, hwhole, hpath, hfile, hentry, hsize ▸ hheader, hwritten.iteration_eq,
      hwritten.file_eq.trans hpath, ?_, fun hlong => ?_, tables, records, hwritten, hcopies⟩
    · have hcolumns := forall₂_of_mapM_ok hwritten.columns
      have hlen := hwritten.each.length_eq
      rw [List.forall₂_iff_get] at hall hcolumns ⊢
      obtain ⟨hids, hall⟩ := hall
      obtain ⟨hcount, hcolumns⟩ := hcolumns
      rw [List.length_zipIdx, List.length_zip, ← hlen, Nat.min_self] at hcount
      refine ⟨hids.trans hcount, fun i hi hi' => ?_⟩
      have hit : i < tables.length := hids ▸ hi
      have hone := hcolumns i (by rwa [List.length_zipIdx, List.length_zip, ← hlen, Nat.min_self]) hi'
      rw [List.get_eq_getElem, List.getElem_zipIdx, List.getElem_zip] at hone
      obtain ⟨t, ht, hdropped, heq, hcopied⟩ := hall i hi hit
      have hrecord := (List.forall₂_iff_get.mp hwritten.each).2 i hit (hlen ▸ hit)
      rw [List.get_eq_getElem] at heq hcopied hrecord
      have hpolicy := (h.catalog.tables _ t ht).1
      rw [← hpolicy] at hone hrecord
      have hpair : tables[i] = (t, tables[i].2) := Prod.ext heq rfl
      rw [hpair] at hrecord
      obtain ⟨t', hreplace, hcontinues, -, hrestored⟩ := hcopied.replaceColumns hdropped hrecord hone
      exact ⟨t, t', ht, hreplace, hcontinues, hrestored.storedIn⟩
    · obtain ⟨-, hblock, hlength⟩ := BlockFile.Holds.read_ok hwritten.metadata hwhole hlong
      refine ⟨⟨?_, hwritten.metadata.count_lt, ?_⟩, fun b hb => ?_⟩
      · exact Nat.lt_of_le_of_lt (Nat.le_add_right _ _) hblock
      · rw [hwritten.metadata.length_eq]
        exact hlength
      · exact hwritten.describes hn hlast hcopies.copied hwhole hlong hb

/-- What was written stays written while its file does. -/
theorem Wrote.congr {n : Nat} {w : WrittenCheckpoint} {f : BlockFile} {d d' : Disk}
    (h : db.Wrote n w f d) (hbytes : d'.bytes f.file = d.bytes f.file)
    (hsize : d.contents.size ≤ d'.contents.size)
    (hentry : d'.entry? [Checkpoint.fileName n] = d.entry? [Checkpoint.fileName n]) :
    db.Wrote n w f d' where
  whole := ⟨Nat.lt_of_lt_of_le h.whole.inside hsize, hbytes ▸ h.whole.length_eq, h.whole.least,
    h.whole.small⟩
  path_eq := h.path_eq
  fresh := h.fresh
  entry := hentry.trans h.entry
  header := hbytes ▸ h.header
  iteration_eq := h.iteration_eq
  file_eq := h.file_eq
  columns := h.columns
  metadata hlong := by
    rw [hbytes] at hlong
    refine ⟨(h.metadata hlong).1, fun b hb => (h.metadata hlong).2 b ?_⟩
    rw [← hb, BlockFile.read, BlockFile.read, hbytes]
  copies := by
    obtain ⟨tables, records, hwritten, hcopies⟩ := h.copies
    refine ⟨tables, records, hwritten.within fun p payload hp => ?_, hcopies⟩
    refine ⟨hp.length_eq, hp.count_lt, hp.inside, hp.fits, fun hblock hlong => ?_⟩
    rw [← hp.read hblock hlong, BlockFile.read, BlockFile.read, hbytes]

/-- A checkpoint that is written to a block file, and the manifest that names it. -/
structure Stands (db : Database) (n : Nat) (w : WrittenCheckpoint) (f : BlockFile) (d : Disk) :
    Prop where
  wrote : db.Wrote n w f d
  manifest : ∃ file, d.entry? [Manifest.path] = some (.file file) ∧ file ≠ db.log.file ∧
    d.bytes file = Bytes.ofString w.manifest.render

section Stands

variable {n : Nat} {w : WrittenCheckpoint} {f : BlockFile} {d d' : Disk}

/-- The manifest of a checkpoint that was written is read back. -/
theorem Wrote.parse? (h : db.Wrote n w f d) (hn : n < UInt64.size)
    (hlong : (d.bytes f.file).length ≤ Bytes.longest) :
    Manifest.parse? (Bytes.ofString w.manifest.render) = some w.manifest := by
  obtain ⟨hwordy, -⟩ := h.metadata hlong
  refine Manifest.parse?_render (fun c hc => ?_) (h.iteration_eq ▸ hn) hwordy.block hwordy.count
    hwordy.length
  rw [h.file_eq] at hc
  exact Checkpoint.isPlain_fileName hn c hc

/-- The manifest of a checkpoint that was written is shorter than a block file. -/
theorem Wrote.length_manifest (h : db.Wrote n w f d) (hn : n < UInt64.size)
    (hlong : (d.bytes f.file).length ≤ Bytes.longest) :
    (Bytes.ofString w.manifest.render).length < BlockFile.headerArea := by
  obtain ⟨hwordy, -⟩ := h.metadata hlong
  refine Manifest.length_render_lt (fun c hc => ?_) ?_ (h.iteration_eq ▸ hn) hwordy.block hwordy.count
    hwordy.length
  · rw [h.file_eq] at hc
    exact Checkpoint.isPlain_fileName hn c hc
  · rw [h.file_eq]
    exact Checkpoint.length_le_of_plain (Checkpoint.plain_fileName hn)

/-- **A checkpoint that is installed** is what the database stands on. -/
theorem Stands.anchors (h : db.Stands n w f d) (hn : n < UInt64.size)
    (hlog : db.log.file < db.disk.contents.size)
    (hlong : (d.bytes f.file).length ≤ Bytes.longest) :
    Checkpoint.Anchors d db.log.file n db.lastCommit := by
  obtain ⟨file, hentry, hfile, hbytes⟩ := h.manifest
  have hother : f.file ≠ db.log.file := h.wrote.fresh ▸ Nat.ne_of_gt hlog
  refine .installed w.manifest file f.file hentry hfile (hbytes ▸ h.wrote.parse? hn hlong) hn
    h.wrote.iteration_eq h.wrote.file_eq h.wrote.entry hother fun g b hg hb =>
      (h.wrote.metadata hlong).2 b ?_
  rw [← hb]
  exact (hg.read_eq h.wrote.whole (Checkpoint.plain_fileName hn) h.wrote.entry h.wrote.path_eq
    h.wrote.header _).symm

/-- **What is stood on stays** while its names and its files do. -/
theorem Stands.of_same (h : db.Stands n w f d) (hd : d.Whole)
    (hlog : db.log.file < db.disk.contents.size)
    (hmanifest : d'.entry? [Manifest.path] = d.entry? [Manifest.path])
    (hname : d'.entry? [Checkpoint.fileName n] = d.entry? [Checkpoint.fileName n])
    (hgrows : d.Grows db.log.file d') : db.Stands n w f d' := by
  obtain ⟨file, hentry, hfile, hbytes⟩ := h.manifest
  have hother : f.file ≠ db.log.file := h.wrote.fresh ▸ Nat.ne_of_gt hlog
  exact ⟨h.wrote.congr (hgrows.bytes_eq _ h.wrote.whole.inside hother) hgrows.size_le hname, file,
    hmanifest.trans hentry, hfile, (hgrows.bytes_eq file (hd _ _ hentry) hfile).trans hbytes⟩

/-- **A checkpoint that is written can be installed,** whatever is left of a manifest that was not. -/
theorem Wrote.install {db₂ : Database} (hd : db₂.Durable) (hw : db.Wrote n w f db₂.disk)
    (hn : n < UInt64.size) (hfile : db₂.log.file = db.log.file) :
    ∃ d' file, Checkpoint.install db₂.disk w.manifest = (.ok (), d') ∧
      Checkpoint.Installed db₂.disk d' w.manifest file ∧ db.log.file ≠ file ∧
      (db₂.disk.bytes file).length < BlockFile.headerArea ∧ db.Stands n w f d' := by
  obtain ⟨d', file, hinstall, hin⟩ :=
    Checkpoint.install_ok hd.whole w.manifest hd.draft.free hd.isDirectory_manifest
  obtain ⟨hshort, halone⟩ := hd.draft.target hd.whole hin.old
  obtain ⟨-, -, -, hmanifest, hdraft, -⟩ :=
    Checkpoint.name_of_iterationOf? (Checkpoint.iterationOf?_fileName hn)
  obtain ⟨gs, hopen, -⟩ := hd.log
  have hlog : db.log.file ≠ file := halone _ _ (by decide) (hfile ▸ hopen.name)
  have hblocks : f.file ≠ file := halone _ _ (by simpa using hdraft) hw.entry
  refine ⟨d', file, hinstall, hin, hlog, hshort, ?_, file, hin.entry, hlog.symm, hin.bytes⟩
  exact hw.congr (hin.spares.grows.bytes_eq _ hw.whole.inside hblocks) hin.spares.grows.size_le
    (hin.spares.entries _ (by simp [hmanifest, hdraft]))

/-- **A directory with a checkpoint that was just installed** can be opened again. -/
theorem Stands.durable (h : db.Stands n w f d) (hn : n < UInt64.size) (db₂ : Database)
    (hlog : db.log.file < db.disk.contents.size)
    (hlong : (d.bytes f.file).length ≤ Bytes.longest) (hwhole : d.Whole)
    (hdraft : d.entry? [Manifest.draftPath] = none) {gs : List (LogGroup × Nat)} {stop : Nat}
    (hopen : Log.Open db₂.log d (gs ++ [(.marker n, stop)])) (hfile : db₂.log.file = db.log.file)
    (hlast : db₂.lastCommit = db.lastCommit) :
    Durable { db₂ with disk := d, iteration := n } where
  whole := hwhole
  draft := .of_none hdraft
  log := by
    refine ⟨_, hopen, ?_, ?_⟩ <;> rw [Log.behind_marker]
    · exact .nil
    · exact fun _ ht => absurd ht List.not_mem_nil
  anchors := by
    change Checkpoint.Anchors d db₂.log.file n db₂.lastCommit
    rw [hfile, hlast]
    exact h.anchors hn hlog hlong

end Stands

/-! ## Whether it is taken or not -/

/-- The counters and the form of segments are the same. -/
structure Recounts (db db' : Database) : Prop where
  policy_eq : db'.policy = db.policy
  last_eq : db'.lastCommit = db.lastCommit
  next_eq : db'.nextTransaction = db.nextTransaction

/-- Which files are safe depends on the file of the log alone. -/
theorem safeFile_congr {db' : Database} (h : db'.log.file = db.log.file) :
    db'.SafeFile = db.SafeFile := by
  unfold SafeFile
  rw [h]

/-- The database after a written checkpoint was adopted, with the marker in the log and the tables
going on in the file. -/
def adopted (db : Database) (n : Nat) (log : LogWriter) (disk : Disk) (c : Catalog) : Database :=
  { db with catalog := c, iteration := n, log, disk }.emptyLog.removeStale n

/-- What comes of it when a written checkpoint is adopted, with the marker in the log and the manifest
in its place. -/
structure Adopted (db : Database) (decoded : Decoded) (disk : Disk) (n : Nat) (w : WrittenCheckpoint)
    (log₂ : LogWriter) (disk₂ disk₃ : Disk) (c : Catalog) (db' : Database) : Prop where
  installed : Checkpoint.install disk₂ w.manifest = (.ok (), disk₃)
  eq : db' = adopted { db with decoded } n log₂ disk₃ c
  catalog : db.catalog.Adopts (db.catalog.ids.zip w.columns) c
  keeps : Source.Keeps db.SafeFile disk.source db'.disk.source
  durable : db'.Durable
  idle : db'.Idle
  recounts : db.Recounts db'

/-- **With the marker in the log** a written checkpoint is installed, and the database stands on it. -/
theorem Wrote.mark {decoded : Decoded} {disk : Disk} {n : Nat} {w : WrittenCheckpoint}
    {f : BlockFile} (hw : db.Wrote n w f disk) (hn : n < UInt64.size) (hlater : db.iteration < n)
    (hd : db.Durable) (hd₁ : Durable { db with decoded, disk })
    {log₂ : LogWriter} {disk₂ : Disk}
    (happend : db.log.append disk [.checkpoint n] = .ok (log₂, disk₂)) :
    log₂.file = db.log.file ∧ Disk.SameBut db.log.file disk disk₂ ∧
      ∃ disk₃ file gs stop, Checkpoint.install disk₂ w.manifest = (.ok (), disk₃) ∧
        Checkpoint.Installed disk₂ disk₃ w.manifest file ∧
        (disk₂.bytes file).length < BlockFile.headerArea ∧
        Log.Open log₂ disk₃ (gs ++ [(.marker n, stop)]) ∧ db.Stands n w f disk₃ := by
  obtain ⟨gs, hopen, -⟩ := hd₁.log
  obtain ⟨hfile₂, hsame₂, stop, hopen₂⟩ := hopen.marker hn happend
  change log₂.file = db.log.file at hfile₂
  have hd₂ := hd₁.marker hlater hn happend
  have hentry₂ := Disk.sameExcept_of_entries hsame₂.entries_eq []
  have hw₂ : db.Wrote n w f disk₂ :=
    hw.congr (hsame₂.bytes_eq _ (hw.fresh ▸ Nat.ne_of_gt hd.log_lt)) (Nat.le_of_eq hsame₂.size_eq.symm)
      (hentry₂ _ List.not_mem_nil)
  obtain ⟨disk₃, file, hinstall, hin, hne, hshort, hstands⟩ := Wrote.install hd₂ hw₂ hn hfile₂
  exact ⟨hfile₂, hsame₂, disk₃, file, gs, stop, hinstall, hin, hshort,
    hopen₂.spares hin.spares (hfile₂ ▸ hne) (by decide), hstands⟩

/-- **A checkpoint that is adopted** is stood on from then on. -/
theorem Wrote.adopt {decoded : Decoded} {disk : Disk} {n : Nat} {w : WrittenCheckpoint}
    {f : BlockFile} (hw : db.Wrote n w f disk) (hn : n < UInt64.size) (hlater : db.iteration < n)
    (hd : db.Durable) (hd₁ : Durable { db with decoded, disk }) (h : Idle { db with decoded, disk })
    {log₂ : LogWriter} {disk₂ : Disk} (happend : db.log.append disk [.checkpoint n] = .ok (log₂, disk₂))
    {r : Except TransactionError Nat} {db' : Database}
    (hok : adoptCheckpoint { db with decoded, disk } db.catalog.ids w = (r, db'))
    (hlong : ∀ file, (db'.disk.bytes file).length ≤ Bytes.longest) :
    r = .ok n ∧ ∃ disk₃ c, db.Adopted decoded disk n w log₂ disk₂ disk₃ c db' := by
  -- the marker and the manifest
  obtain ⟨hfile₂, hsame₂, disk₃, file, gs, stop, hinstall, hin, hshort, hopen₃, hstands⟩ :=
    hw.mark hn hlater hd hd₁ happend
  -- the tables
  have hfresh : f.file ≠ db.log.file := hw.fresh ▸ Nat.ne_of_gt hd.log_lt
  have hids : ((db.catalog.ids.zip w.columns).map (·.1)).Nodup := by
    rw [List.map_fst_zip (Nat.le_of_eq hw.columns.length_eq)]
    exact h.catalog.sound.ids_nodup
  have hcatalog : db.catalog.Settled db.policy
      (Database.SafeFile { db with decoded, log := log₂, disk := disk₃ }) db.lastCommit := by
    rw [safeFile_congr hfile₂]
    exact h.catalog
  obtain ⟨c, hadopt, hsettled, hadopts⟩ := adoptColumns_ok
    { db with decoded, log := log₂, disk := disk₃ } hcatalog (hfile₂ ▸ hfresh) hids
    fun p hp => (List.forall₂_iff_zip.mp hw.columns).2 hp
  have hresult : adoptCheckpoint { db with decoded, disk } db.catalog.ids w =
      (.ok n, adopted { db with decoded } n log₂ disk₃ c) := by
    rw [adoptCheckpoint]
    dsimp only
    rw [hw.iteration_eq, happend]
    dsimp only
    rw [installCheckpoint]
    dsimp only
    rw [hinstall]
    rw [Attempt.andThen_ok, hadopt]
    rfl
  obtain ⟨rfl, rfl⟩ := Prod.mk.inj (hok.symm.trans hresult)
  -- the log is emptied, and the other files are deleted
  have hgrows₅ : disk₃.Grows log₂.file (adopted { db with decoded } n log₂ disk₃ c).disk :=
    log₂.grows_cleanup hin.spares.whole (@Checkpoint.iterationOf?_stale (log₂.truncate disk₃).2 n)
  have hlong₃ : (disk₃.bytes f.file).length ≤ Bytes.longest := by
    rw [← hgrows₅.bytes_eq _ hstands.wrote.whole.inside (hfile₂ ▸ hfresh)]
    exact hlong f.file
  have hd₃ : Durable { db with decoded, catalog := c, iteration := n, log := log₂, disk := disk₃ } :=
    hstands.durable hn { db with decoded, catalog := c, log := log₂ } hd.log_lt hlong₃
      hin.spares.whole hin.draft hopen₃ hfile₂ rfl
  have hkeeps : Source.Keeps db.SafeFile disk.source
      (adopted { db with decoded } n log₂ disk₃ c).disk.source := by
    have hsafe : ∀ v, db.SafeFile v → v.blocks.file ≠ log₂.file := fun v hv => hfile₂ ▸ hv
    exact (((Disk.Grows.sameBut hsame₂).keeps fun _ hv => hv).trans
      (hin.spares.grows.keeps_short hshort _)).trans (hgrows₅.keeps hsafe)
  refine ⟨rfl, disk₃, c, hinstall, rfl, hadopts, hkeeps,
    hd₃.emptyLog.deleteAll Checkpoint.iterationOf?_stale, ⟨hsettled, h.last_lt, h.next_ge,
    h.next_le, h.active, ?_⟩, ⟨rfl, rfl, rfl⟩⟩
  have hsafe : Database.SafeFile (adopted { db with decoded } n log₂ disk₃ c) = db.SafeFile :=
    safeFile_congr hfile₂
  rw [hsafe]
  exact Decoded.Kept.keeps h.kept hkeeps

/-- Every file is one that can be held in memory. -/
def Compact (db : Database) : Prop := ∀ file, (db.disk.bytes file).length ≤ Bytes.longest

/-- **A checkpoint of an idle database** leaves it idle, whether it is taken or not. -/
theorem Idle.checkpoint (h : db.Idle) (hd : db.Durable) (hr : db.Readable) (hshort : db.Short)
    {r : Except TransactionError Nat} {db' : Database} (hok : db.checkpoint = (r, db'))
    (hcompact : db'.Compact) : db'.Durable ∧ db'.Idle ∧ db.Recounts db' := by
  rw [Database.checkpoint, h.active] at hok
  simp only [List.isEmpty_nil, Bool.not_true, Bool.false_eq_true, if_false] at hok
  split at hok
  · obtain ⟨-, rfl⟩ := Prod.mk.inj hok
    exact ⟨hd, h, rfl, rfl, rfl⟩
  rename_i hiteration
  have hn := Nat.lt_of_not_le hiteration
  rcases hw : db.writeCheckpoint (db.iteration + 1) db.lastCommit .committed db.vectorSize
    with ⟨r₁, db₁⟩
  rw [hw] at hok
  obtain ⟨⟨decoded, disk, rfl⟩, hidle, hspares, hnames, hwrote⟩ :=
    h.writeCheckpoint hr hshort hn hd.whole hw
  have hd₁ : Durable { db with decoded, disk } :=
    (hd.spares hn hspares hnames).congr rfl rfl rfl rfl
  cases r₁ with
  | error e =>
    obtain ⟨-, rfl⟩ := Prod.mk.inj hok
    exact ⟨hd₁, hidle, rfl, rfl, rfl⟩
  | ok w =>
    obtain ⟨f, hf⟩ := hwrote w rfl
    cases happend : db.log.append disk [.checkpoint (db.iteration + 1)] with
    | error e =>
      change adoptCheckpoint { db with decoded, disk } db.catalog.ids w = (r, db') at hok
      rw [adoptCheckpoint] at hok
      dsimp only at hok
      rw [hf.iteration_eq, happend] at hok
      obtain ⟨-, rfl⟩ := Prod.mk.inj hok
      exact ⟨hd₁, hidle, rfl, rfl, rfl⟩
    | ok next =>
      obtain ⟨-, disk₃, c, ha⟩ :=
        hf.adopt hn (Nat.lt_succ_self _) hd hd₁ hidle happend hok hcompact
      exact ⟨ha.durable, ha.idle, ha.recounts⟩

end Database

/-! ## Systems -/

namespace System

variable {s : System}

/-- The system after its database took a checkpoint, or refused to. -/
def checkpoint (s : System) : System := { s with database := s.database.checkpoint.2 }

/-- **A steady system without active transactions** is idle. -/
theorem Steady.idle (h : s.Steady) (hactive : s.database.active = []) :
    activeOf s.transactions = [] ∧ s.database.Idle := by
  have hnone : activeOf s.transactions = [] := by
    refine List.eq_nil_iff_forall_not_mem.mpr fun x hx => ?_
    have hm := (h.sound.database.listed x.id).mpr (List.mem_map_of_mem hx)
    rw [hactive] at hm
    exact absurd hm List.not_mem_nil
  exact ⟨hnone, Database.Sound.idle (hnone ▸ h.sound.database)
    (fun id t ht => hnone ▸ h.guarded id t ht) h.policies⟩

/-- The blocks of a steady system can be read. -/
theorem Steady.readable (h : s.Steady) : s.database.Readable :=
  fun id t ht => (h.sound.database.owned id t ht).readable

/-- **A checkpoint leaves a steady system.** -/
theorem Steady.checkpoint (h : s.Steady) (hshort : s.database.Short)
    (hcompact : s.checkpoint.database.Compact) (hr' : s.checkpoint.database.Readable) :
    s.checkpoint.Steady ∧ s.database.Recounts s.checkpoint.database := by
  by_cases hactive : s.database.active = []
  · obtain ⟨hnone, hidle⟩ := h.idle hactive
    obtain ⟨hdurable, hidle', hcounts⟩ :=
      hidle.checkpoint h.durable h.readable hshort rfl hcompact
    refine ⟨⟨⟨?_, h.sound.ids, ?_⟩, fun id t ht => ?_,
      fun id t ht => (hidle'.catalog.tables id t ht).1, hdurable⟩, hcounts⟩
    · change Database.Sound _ (activeOf s.transactions)
      exact hnone ▸ hidle'.sound hr'
    · change 0 < s.database.checkpoint.2.policy.capacity
      exact hcounts.policy_eq ▸ h.sound.capacity
    · change t.Guarded _ (activeOf s.transactions)
      exact hnone ▸ (hidle'.catalog.tables id t ht).2.guarded
  · have hsame : s.checkpoint = s := by
      have hrefused : s.database.checkpoint.2 = s.database := by
        rw [Database.checkpoint, if_pos]
        cases hl : s.database.active with
        | nil => exact absurd hl hactive
        | cons x rest => rfl
      rw [System.checkpoint, hrefused]
    rw [hsame]
    exact ⟨h, rfl, rfl, rfl⟩

end System
end ColumnStore
