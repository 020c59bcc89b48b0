/-
# Loading the checkpoint that was written

A checkpoint that a database stands on is loaded with the tables that were copied, in the order of
their names (`Database.Stands.loadCheckpoint`).  They mirror the tables that go on, and the ledger tells
them with new numbers for the rows: the checkpoint is one chapter more of what the directory recalls
(`Database.Stands.recalls`).
-/

import ColumnStore.Proofs.Checkpoint.Renumbering
import ColumnStore.Proofs.Database.Checkpointing
import ColumnStore.Proofs.Database.Mirroring
import ColumnStore.Proofs.Database.Recalling

namespace ColumnStore

/-! ## Tables -/

/-- A table, the columns with which it goes on, and a table that is loaded from their file. -/
def Checkpoint.Twins (source : Source) (policy : SegmentPolicy) (f : BlockFile) (d : Disk)
    (number : Nat) (t : Table) (stored : List Column) (u : Table) : Prop :=
  ∃ columns r r' t', Reloaded source policy f d number t columns r r' u ∧
    t.replaceColumns stored = .ok t' ∧ Restored t columns f policy number r.segments t'

namespace Database

variable {db : Database} {n : Nat} {w : WrittenCheckpoint} {f : BlockFile} {d : Disk}

/-- Tables that are loaded from a checkpoint of a database, in the order of its names. -/
structure Loaded (db : Database) (f : BlockFile) (d : Disk) (columns : List (List Column))
    (us : List Table) : Prop where
  length_eq : us.length = db.catalog.names.length
  each : ∀ (i : Nat) (name : String) (id : TableId), db.catalog.names[i]? = some (name, id) →
    ∃ t stored u, db.catalog.tables[id]? = some t ∧ t.dropped = false ∧ t.name = name ∧
      columns[i]? = some stored ∧ us[i]? = some u ∧
      Checkpoint.Twins db.source db.policy f d i t stored u

/-- **The tables of a checkpoint that was written** are read from its file. -/
theorem Wrote.loadNamed (h : db.Wrote n w f d) (hidle : db.Idle) (hn : n < UInt64.size)
    (hp : 0 < db.policy.capacity)
    (hwide : ∀ (id : Nat) (t : Table), db.catalog.tables[id]? = some t → t.dropped = false →
      t.definitions ≠ []) (hlong : (d.bytes f.file).length ≤ Bytes.longest) :
    ∃ us, Checkpoint.loadNamed d db.policy w.manifest = .ok ⟨n, db.lastCommit, us⟩ ∧
      db.Loaded f d w.columns us := by
  obtain ⟨tables, records, hwritten, hcopies⟩ := h.copies
  obtain ⟨b, m, hb, hm, hiteration, htime, halike, -⟩ := hwritten.reads hn
    (Nat.lt_trans hidle.last_lt (by decide)) hcopies.copied h.whole hlong
  have hopen : BlockFile.openFile d w.manifest.file = .ok { f with writable := false } := by
    rw [h.file_eq]
    exact BlockFile.openFile_ok.mpr
      (h.whole.openedAt (Checkpoint.plain_fileName hn) h.entry h.path_eq h.header)
  have hids : db.catalog.ids.length = db.catalog.names.length := List.length_map ..
  have hcount : m.tables.length = db.catalog.names.length := by
    rw [← halike.length_eq, ← hwritten.each.length_eq, ← hcopies.length_eq, hids]
  have hone : ∀ i r', m.tables[i]? = some r' → ∃ name id t stored u,
      db.catalog.names[i]? = some (name, id) ∧ db.catalog.tables[id]? = some t ∧
      t.dropped = false ∧ t.name = name ∧ w.columns[i]? = some stored ∧
      Checkpoint.loadTable { f with writable := false } db.policy i r' = .ok u ∧
      Checkpoint.Twins db.source db.policy f d i t stored u := by
    intro i r' hr'
    obtain ⟨r, hr, hsame⟩ := exists_left_of_forall₂ halike hr'
    obtain ⟨⟨t, columns⟩, htable, hrecords⟩ := exists_left_of_forall₂ hwritten.each hr
    obtain ⟨id, hid, t', ht, hdropped, rfl, hcopied⟩ := exists_left_of_forall₂ hcopies htable
    rw [Catalog.ids, List.getElem?_map] at hid
    obtain ⟨⟨name, id⟩, hname, rfl⟩ := Option.map_eq_some_iff.mp hid
    obtain ⟨t', ht', hnamed, -⟩ := hidle.catalog.sound.named name id (List.mem_of_getElem? hname)
    obtain rfl := Option.some.inj (ht.symm.trans ht')
    have hpolicy := (hidle.catalog.tables id t ht).1
    obtain ⟨-, hstored⟩ := getElem?_of_zip_mapM hwritten.each.length_eq hwritten.columns
    obtain ⟨stored, hs, hone⟩ := hstored i _ r htable hr
    obtain ⟨t', hreplace, -, -, hrestored⟩ := hcopied.replaceColumns hdropped hrecords (hpolicy ▸ hone)
    obtain ⟨u, hload, hloaded⟩ := hcopied.loadTable (hwide id t ht hdropped) hp hrecords hsame
      { f with writable := false } i
    exact ⟨name, id, t, stored, u, hname, ht, hdropped, hnamed, hs, hload, columns, r, r', t',
      ⟨hcopied, hwide id t ht hdropped, hpolicy, hrecords, hsame, hloaded⟩, hreplace,
      hpolicy ▸ hrestored⟩
  have hloads : ∀ p ∈ m.tables.zipIdx, ∃ u, Checkpoint.loadTable { f with writable := false }
      db.policy p.2 p.1 = .ok u := by
    intro p hm
    obtain ⟨-, -, -, -, u, -, -, -, -, -, hu, -⟩ := hone p.2 p.1 (List.mk_mem_zipIdx_iff_getElem?.mp hm)
    exact ⟨u, hu⟩
  obtain ⟨us, hus⟩ := exists_mapM_ok hloads
  have hall := forall₂_of_mapM_ok hus
  refine ⟨us, ?_, ?_, fun i name id hname => ?_⟩
  · rw [Checkpoint.loadNamed, hopen, ok_bind]
    have hb' : BlockFile.read { f with writable := false } d w.manifest.metadata = .ok b := hb
    rw [hb', ok_bind, hm]
    dsimp only
    rw [if_neg (by rw [hiteration, h.iteration_eq, not_not]), hiteration, htime]
    exact bind_eq_ok.mpr ⟨us, hus, rfl⟩
  · rw [← hall.length_eq, List.length_zipIdx, hcount]
  · obtain ⟨r', hr'⟩ : ∃ r', m.tables[i]? = some r' :=
      ⟨_, List.getElem?_eq_getElem (hcount ▸ (List.getElem?_eq_some_iff.mp hname).1)⟩
    obtain ⟨name', id', t, stored, u, hname', ht, hdropped, hnamed, hs, hload, htwins⟩ := hone i _ hr'
    obtain ⟨rfl, rfl⟩ := Prod.mk.inj (Option.some.inj (hname.symm.trans hname'))
    obtain ⟨u', hu', hload'⟩ := exists_right_of_forall₂ (i := i) (x := (r', i)) hall (by
      rw [List.getElem?_zipIdx, hr']
      simp)
    obtain rfl := Except.ok.inj (hload'.symm.trans hload)
    exact ⟨t, stored, u', ht, hdropped, hnamed, hs, hu', htwins⟩

/-! ## The catalog that is loaded -/

namespace Loaded

variable {columns : List (List Column)} {us : List Table}

/-- Every table that is loaded is a copy of one that has a name. -/
theorem of_getElem? (h : db.Loaded f d columns us) {i : Nat} {u : Table} (hu : us[i]? = some u) :
    ∃ name id t stored, db.catalog.names[i]? = some (name, id) ∧ db.catalog.tables[id]? = some t ∧
      t.name = name ∧ columns[i]? = some stored ∧
      Checkpoint.Twins db.source db.policy f d i t stored u := by
  obtain ⟨⟨name, id⟩, hname⟩ : ∃ p, db.catalog.names[i]? = some p :=
    ⟨_, List.getElem?_eq_getElem (h.length_eq ▸ (List.getElem?_eq_some_iff.mp hu).1)⟩
  obtain ⟨t, stored, u', ht, -, hnamed, hs, hu', htwins⟩ := h.each i name id hname
  obtain rfl := Option.some.inj (hu.symm.trans hu')
  exact ⟨name, id, t, stored, hname, ht, hnamed, hs, htwins⟩

theorem names_eq (h : db.Loaded f d columns us) :
    (Catalog.ofTables us).names.map (·.1) = db.catalog.names.map (·.1) := by
  rw [Catalog.names_ofTables]
  refine List.ext_getElem (by simp [h.length_eq]) fun i hi hi' => ?_
  rw [List.length_map] at hi
  obtain ⟨name, id, t, stored, hname, -, hnamed, -, _, _, _, _, hr, -⟩ :=
    h.of_getElem? (List.getElem?_eq_getElem hi)
  obtain ⟨hlt, heq⟩ := List.getElem?_eq_some_iff.mp hname
  rw [List.getElem_map, List.getElem_map, hr.restored.name_eq, hnamed, heq]

theorem regular (h : db.Loaded f d columns us)
    (hascending : (db.catalog.names.map (·.1)).Pairwise (· < ·)) : (Catalog.ofTables us).Regular where
  ascending := h.names_eq ▸ hascending
  wide i u hu := by
    rw [Catalog.tables_ofTables] at hu
    obtain ⟨_, _, t, _, -, -, -, -, _, _, _, _, hr, -⟩ := h.of_getElem? hu
    exact hr.restored.definitions_eq ▸ hr.wide

theorem readable (h : db.Loaded f d columns us) (hf : db.policy.compression.Faithful)
    (hw : f.Whole d) (hlong : (d.bytes f.file).length ≤ Bytes.longest) :
    (Catalog.ofTables us).Readable d.source := by
  intro i u hu
  rw [Catalog.tables_ofTables] at hu
  obtain ⟨_, _, t, _, -, -, -, -, _, _, _, _, hr, -⟩ := h.of_getElem? hu
  exact hr.readable hf hw hlong

/-- **What is loaded is told** by the ledger with new numbers for the rows. -/
theorem tells (h : db.Loaded f d columns us) (hf : db.policy.compression.Faithful)
    (hw : f.Whole d) (hlong : (d.bytes f.file).length ≤ Bytes.longest) {l : Ledger}
    (hl : l.Tells db.source db.catalog) : l.renumber.Tells d.source (.ofTables us) where
  names := by
    rw [h.names_eq, Ledger.renumber, List.map_map]
    exact hl.names
  tables x hx := by
    obtain ⟨y, hy, rfl⟩ := List.mem_map.mp hx
    obtain ⟨id, t, hm, ht, hyt⟩ := hl.tables y hy
    obtain ⟨i, hi⟩ := List.mem_iff_getElem?.mp hm
    obtain ⟨t', stored, u, ht', -, hnamed, -, hu, _, _, _, _, hr, -⟩ := h.each i _ id hi
    obtain rfl := Option.some.inj (ht.symm.trans ht')
    refine ⟨i, u, ?_, (Catalog.tables_ofTables us i).trans hu, hr.tells hf hw hlong hyt⟩
    rw [← hnamed, ← hr.restored.name_eq]
    exact Catalog.mem_names_ofTables hu

/-- **What is loaded mirrors** the tables that go on. -/
theorem mirrors (h : db.Loaded f d columns us) {c : Catalog} (hc : db.catalog.Sound)
    (hsound : (Catalog.ofTables us).Sound) (ha : db.catalog.Adopts (db.catalog.ids.zip columns) c)
    (last : Stamp) : c.Mirrors last (.ofTables us) where
  sound := hsound
  names_eq := h.names_eq.trans (congrArg _ ha.names_eq.symm)
  tables id t' ht' hd' := by
    rcases ha.tables id t' ht' with ⟨hnot, ht⟩ | ⟨stored, t, hm, ht, hreplace⟩
    · -- A table that is not dropped has a name, so it goes on in the file.
      obtain ⟨i, hi⟩ := List.mem_iff_getElem?.mp (hc.unnamed id t' ht hd')
      obtain ⟨t, stored, u, -, -, -, hs, -⟩ := h.each i _ id hi
      refine absurd (List.mem_map.mpr ⟨(id, stored), ?_, rfl⟩) hnot
      refine List.mem_of_getElem? (i := i) (List.getElem?_zip_eq_some.mpr ⟨?_, hs⟩)
      rw [Catalog.ids, List.getElem?_map, hi]
      rfl
    · obtain ⟨i, hi⟩ := List.mem_iff_getElem?.mp hm
      obtain ⟨hid, hs⟩ := List.getElem?_zip_eq_some.mp hi
      rw [Catalog.ids, List.getElem?_map] at hid
      obtain ⟨⟨name, id⟩, hname, rfl⟩ := Option.map_eq_some_iff.mp hid
      obtain ⟨t₁, stored₁, u, ht₁, -, -, hs₁, hu, _, _, _, t₂, hr, hreplace₂, hrestored⟩ :=
        h.each i name id hname
      obtain rfl := Option.some.inj (ht.symm.trans ht₁)
      obtain rfl := Option.some.inj (hs.symm.trans hs₁)
      obtain rfl := Except.ok.inj (hreplace.symm.trans hreplace₂)
      have hu' := (Catalog.tables_ofTables us i).trans hu
      have hfind := Catalog.get_eq_ok.mp (hsound.find hu' hr.restored.storedIn.dropped_eq)
      have hmirrors := hr.mirrors hrestored last
      exact ⟨i, u, hmirrors.name_eq ▸ hfind, hu', hmirrors⟩

end Loaded

/-! ## What stands on a disk -/

/-- **A checkpoint that a database stands on is loaded.** -/
theorem Stands.loadCheckpoint (h : db.Stands n w f d) (hidle : db.Idle) (hn : n < UInt64.size)
    (hp : 0 < db.policy.capacity) {last : Stamp} {m : Catalog}
    (hm : db.catalog.Mirrors last m) (hregular : m.Regular)
    (hlong : (d.bytes f.file).length ≤ Bytes.longest) :
    ∃ us, Database.loadCheckpoint d db.policy = .ok (.ofTables us, n, db.lastCommit) ∧
      db.Loaded f d w.columns us := by
  obtain ⟨us, hload, hloaded⟩ := h.wrote.loadNamed hidle hn hp (fun _ _ => hm.wide hregular) hlong
  obtain ⟨file, hentry, -, hbytes⟩ := h.manifest
  have hmanifest : Checkpoint.currentManifest d = .ok (some w.manifest) := by
    rw [Checkpoint.currentManifest, Checkpoint.plain_manifest.contains_eq, hentry, Option.isSome_some,
      if_pos rfl, Disk.read_of_find (Checkpoint.plain_manifest.find_eq_ok.mpr hentry), mapError_ok,
      ok_bind, hbytes, h.wrote.parse? hn hlong]
    rfl
  refine ⟨us, ?_, hloaded⟩
  rw [Database.loadCheckpoint, Checkpoint.load, hmanifest, ok_bind]
  dsimp only
  rw [hload, ok_bind]
  refine bind_eq_ok.mpr ⟨_, rfl, bind_eq_ok.mpr ⟨_, Catalog.insertTables_eq ?_, rfl⟩⟩
  rw [← Catalog.names_ofTables, hloaded.names_eq, ← hm.names_eq]
  exact hregular.ascending

/-- **A checkpoint that is installed** is a chapter more of what the directory recalls. -/
theorem Stands.recalls (h : db.Stands n w f d) (hidle : db.Idle) (hn : n < UInt64.size)
    (hp : 0 < db.policy.capacity) (hf : db.policy.compression.Faithful)
    (hlong : (d.bytes f.file).length ≤ Bytes.longest) (hlog : db.log.file < db.disk.contents.size)
    (hwhole : d.Whole) (hdraft : Checkpoint.Draftable d)
    (hname : d.entry? ["wal", "strata.wal"] = some (.file db.log.file)) {m : Catalog}
    (hm : db.catalog.Mirrors db.lastCommit m) (hregular : m.Regular) {cs : List Chapter}
    (hl : (Ledger.of cs).Tells db.disk.source m) (hlast : db.lastCommit = Chapter.last cs)
    (gs : List (LogGroup × Nat)) (stop : Nat) :
    ∃ m', Recalls db.policy db.log.file d n (gs ++ [(.marker n, stop)]) (cs ++ [.checkpoint]) m' ∧
      ∀ c, db.catalog.Adopts (db.catalog.ids.zip w.columns) c → c.Mirrors db.lastCommit m' := by
  obtain ⟨us, hload, hloaded⟩ := h.loadCheckpoint hidle hn hp hm hregular hlong
  have hanchors := h.anchors hn hlog hlong
  obtain ⟨-, -, hsettled, -⟩ := hanchors.loadCheckpoint hp hload
  have hlast' : Chapter.last (cs ++ [.checkpoint]) = db.lastCommit := by
    rw [Chapter.last_append, hlast]
    exact Nat.max_eq_left (Nat.zero_le _)
  refine ⟨.ofTables us, ⟨hwhole, hdraft, hname, ⟨_, _, hanchors, hload, ?_, ?_⟩, ?_, ?_, ?_, ?_, ?_⟩,
    fun c hc => hloaded.mirrors hidle.catalog.sound hsettled.sound hc _⟩
  · rw [Log.behind_marker]
    rfl
  · rw [Log.behind_marker, hlast']
    exact Nat.max_eq_left (Nat.zero_le _)
  · refine ⟨?_, ?_⟩ <;> rw [Log.behind_marker]
    · exact .nil
    · exact fun _ ht => absurd ht List.not_mem_nil
  · exact hsettled.mono (Nat.zero_le _)
  · exact hloaded.regular (hm.names_eq ▸ hregular.ascending)
  · exact hloaded.readable hf h.wrote.whole hlong
  · rw [Ledger.of_append]
    exact hloaded.tells hf h.wrote.whole hlong (hidle.tells hm hl)

end Database
end ColumnStore
