/-
# A mirror that follows a database

The groups in the log, applied to the tables at the start, give a mirror of the tables in memory
(`Database.Mirrored`).  Whatever a step does to the database, it adds to the log what does the same
to the mirror (`Effect.recorded`, `Effect.follows`).
-/

import ColumnStore.Database.Open
import ColumnStore.Proofs.Database.Replaying
import ColumnStore.Proofs.Log.Files

namespace ColumnStore

/-- Silent changes are changes of the tables one by one. -/
theorem Database.Silent.each {id : Stamp} {db db' : Database} (h : Silent id db db') :
    Catalog.Each (fun _ t t' => Table.Keeps t t' ∧ ∀ s : Snapshot, s.sees id = false →
      s.sees neverDeleted = false → Table.Looks s t t') db.catalog db'.catalog := by
  have hquiet : Quiet id db _ := h
  exact ⟨hquiet.names_eq, hquiet.size_eq, hquiet.tables⟩

namespace Catalog

variable {last : Stamp} {c c' m : Catalog}

theorem contains_iff {name : String} : c.contains name = true ↔ name ∈ c.names.map (·.1) := by
  constructor
  · intro h
    obtain ⟨id, hid⟩ := Option.isSome_iff_exists.mp h
    exact List.mem_map_of_mem (mem_of_get (get_eq_ok.mpr hid))
  · intro hm
    by_contra hno
    exact contains_eq_false (Bool.eq_false_iff.mpr hno) hm

/-- The order of the names does not depend on what they lead to. -/
theorem map_fst_insertName {name : String} {i j : TableId} {names names' : List (String × TableId)}
    (h : names.map (·.1) = names'.map (·.1)) :
    (insertName name i names).map (·.1) = (insertName name j names').map (·.1) := by
  induction names generalizing names' with
  | nil =>
    obtain rfl := List.map_eq_nil_iff.mp h.symm
    rfl
  | cons p rest ih =>
    cases names' with
    | nil => cases h
    | cons q rest' =>
      obtain ⟨n, i'⟩ := p
      obtain ⟨n', j'⟩ := q
      obtain ⟨hn, hrest⟩ := List.cons.inj h
      obtain rfl : n = n' := hn
      unfold insertName
      split
      · simp [hrest]
      · simp [ih hrest]

/-- **What an active transaction does leaves a mirror as it is.** -/
theorem Mirrors.silent {db db' : Database} {id : Stamp} (h : Mirrors db.lastCommit db.catalog m)
    (hq : Database.Silent id db db') (hid : firstTransaction ≤ id)
    (hlt : db.lastCommit < firstTransaction) : Mirrors db'.lastCommit db'.catalog m := by
  have hlast : db'.lastCommit = db.lastCommit := by rw [hq.rest_eq]
  have heach := hq.each
  refine ⟨h.sound, h.names_eq.trans (congrArg _ heach.names_eq.symm), fun i t' ht' hd' => ?_⟩
  obtain ⟨t, ht, hk, hl⟩ := heach.of_some ht'
  obtain ⟨j, u, hj, hu, hmu⟩ := h.tables i t ht (hk.dropped_eq ▸ hd')
  refine ⟨j, u, hk.name_eq ▸ hj, hu, hlast ▸ hmu.quiet hk fun time htime => hl _ ?_ ?_⟩
  · exact Snapshot.sees_upTo_of_lt (Nat.lt_of_le_of_lt htime (Nat.lt_of_lt_of_le hlt hid))
  · exact Snapshot.sees_upTo_of_lt
      (Nat.lt_of_le_of_lt htime (Nat.lt_trans hlt (by decide)))

/-- **A commit of something else leaves a mirror as it is.** -/
theorem Mirrors.succ {db : Database} {active : List Transaction} (h : Mirrors last db.catalog m)
    (hdb : db.Sound active) (hlast : last = db.lastCommit) (hlt : last + 1 < firstTransaction) :
    Mirrors (last + 1) db.catalog m := by
  subst hlast
  refine ⟨h.sound, h.names_eq, fun i t ht hd => ?_⟩
  obtain ⟨j, u, hj, hu, hmu⟩ := h.tables i t ht hd
  exact ⟨j, u, hj, hu, hmu.succ (hdb.owned i t ht)
    (fun y hy => Nat.lt_of_lt_of_le hlt (hdb.ids y hy).1) (Nat.lt_trans hlt (by decide))⟩

/-- **A new table is its own mirror.** -/
theorem Mirrors.insert (h : Mirrors last c m) {t : Table} (hs : t.Sound)
    (hd : t.definitions.length < UInt64.size) (hdropped : t.dropped = false) (hrows : t.rows = 0)
    {id : TableId} (hok : c.insert t = .ok (id, c')) :
    ∃ id' m', m.insert t = .ok (id', m') ∧ Mirrors last c' m' := by
  obtain ⟨hfree, -, rfl⟩ := insert_ok hok
  have hfree' : m.contains t.name = false := by
    rw [Bool.eq_false_iff, Ne, contains_iff, h.names_eq]
    exact hfree
  have hm : m.insert t = .ok (m.tables.size,
      { tables := m.tables.push t, names := insertName t.name m.tables.size m.names }) := by
    rw [insert, if_neg (by simp [hfree'])]
  have hsound := h.sound.insert hs hd hdropped hm
  refine ⟨_, _, hm, hsound, map_fst_insertName h.names_eq, fun i t' ht' hd' => ?_⟩
  rw [getElem?_push] at ht'
  split at ht'
  · obtain rfl := Option.some.inj ht'
    have hu := (getElem?_push m t (insertName t.name m.tables.size m.names) m.tables.size).trans
      (if_pos rfl)
    exact ⟨_, t, get_eq_ok.mp (hsound.find hu hd'), hu, .refl hs hrows⟩
  · obtain ⟨j, u, hj, hu, hmu⟩ := h.tables i t' ht' hd'
    have hu' := (getElem?_push m t (insertName t.name m.tables.size m.names) j).trans
      ((if_neg (Nat.ne_of_lt (lt_of_some hu))).trans hu)
    have hfind := get_eq_ok.mp (hsound.find hu' (h.sound.name_of_find hj hu).2)
    exact ⟨j, u, hmu.name_eq ▸ hfind, hu', hmu⟩

/-- **A table that is dropped needs no mirror.** -/
theorem Mirrors.remove (h : Mirrors last c m) (hc : c.Sound) {name : String} {id : TableId}
    (hok : c.remove name = .ok (id, c')) :
    ∃ id' m', m.remove name = .ok (id', m') ∧ Mirrors last c' m' := by
  have hsound' := hc.remove hok
  obtain ⟨hget, rfl⟩ := remove_ok hok
  obtain ⟨t, ht, hname, hd⟩ := hc.named name id (mem_of_get hget)
  obtain ⟨j, u, hj, hu, hmu⟩ := h.tables id t ht hd
  rw [hname] at hj
  have hm : m.remove name = .ok (j,
      { tables := (m.setTable j { m.table j with dropped := true }).tables
        names := m.names.filter (·.1 ≠ name) }) := by
    rw [remove, get_eq_ok.mpr hj]
    rfl
  have hsound := h.sound.remove hm
  have hfilter : ∀ names : List (String × TableId),
      (names.filter (·.1 ≠ name)).map (·.1) = (names.map (·.1)).filter (· ≠ name) := fun names => by
    rw [List.filter_map]
    rfl
  refine ⟨_, _, hm, hsound, ?_, fun i t' ht' hd' => ?_⟩
  · rw [hfilter, hfilter, h.names_eq]
  rw [table_of_some ht] at ht' hsound'
  have ht₀ := (tables_setTable ht { t with dropped := true } i).symm.trans ht'
  split at ht₀
  · obtain rfl := Option.some.inj ht₀
    cases hd'
  · rename_i hi
    obtain ⟨j', u', hj', hu', hmu'⟩ := h.tables i t' ht₀ hd'
    have hne : j' ≠ j := by
      rintro rfl
      exact hi (h.unique hc ht hd ht₀ hd' (hname ▸ hj) hj')
    have hu'' := (tables_setTable hu { u with dropped := true } j').trans ((if_neg hne).trans hu')
    rw [← table_of_some hu] at hu''
    have hfind := get_eq_ok.mp (hsound.find hu'' (h.sound.name_of_find hj' hu').2)
    exact ⟨j', u', hmu'.name_eq ▸ hfind, hu'', hmu'⟩

end Catalog

/-! ## The log -/

namespace Database

/-- A database whose log is made of groups. -/
structure Logs (db : Database) (groups : List LogGroup) : Prop where
  path_eq : db.log.path = Log.path logDirectory
  sound : ∀ g ∈ groups, g.Sound
  holds : ∃ es, Log.Holds db.disk db.log.path db.log.file es ∧
    es.map (·.1) = groups.flatMap LogGroup.entries
  length_eq : db.log.length = (db.disk.bytes db.log.file).length

/-- **Groups that are written are in the log.** -/
theorem Logs.withLog {db : Database} {groups : List LogGroup} (h : db.Logs groups) {g : LogGroup}
    (hg : g.Sound) (hw : ∀ e ∈ g.entries, e.Wordy) {b : Bytes}
    (hb : Frame.encodeAll g.entries = .ok b) : (db.withLog b).Logs (groups ++ [g]) := by
  obtain ⟨es, hes, hmap⟩ := h.holds
  obtain ⟨more, hmore, hholds⟩ := hes.append hw hb
  refine ⟨h.path_eq, ?_, ⟨es ++ more, ?_, ?_⟩, ?_⟩
  · intro g' hg'
    rcases List.mem_append.mp hg' with hg' | hg'
    · exact h.sound g' hg'
    · exact List.mem_singleton.mp hg' ▸ hg
  · rw [← h.length_eq] at hholds
    exact hholds
  · rw [List.map_append, hmap, hmore, List.flatMap_append, List.flatMap_singleton]
  · change db.log.length + b.length =
      ((db.disk.writeAt db.log.file db.log.length b).bytes db.log.file).length
    rw [h.length_eq, Disk.bytes_writeAt_end hes.inside, List.length_append]

/-- What is not in the log file does not matter. -/
theorem Logs.congr {db db' : Database} {groups : List LogGroup} (h : db.Logs groups)
    (hlog : db'.log = db.log) (hdisk : db'.disk = db.disk) : db'.Logs groups where
  path_eq := hlog ▸ h.path_eq
  sound := h.sound
  holds := by
    rw [hlog, hdisk]
    exact h.holds
  length_eq := by
    rw [hlog, hdisk]
    exact h.length_eq

/-- What a step makes of the log and of a mirror: nothing, or a group is added to the log that does
the same to the mirror. -/
inductive Recorded (db db' : Database) : Prop
  | nothing (hdisk : db'.disk = db.disk) (hlog : db'.log = db.log)
      (hiteration : db'.iteration = db.iteration) (hpolicy : db'.policy = db.policy)
      (hlast : db'.lastCommit = db.lastCommit)
      (hm : ∀ m, Catalog.Mirrors db.lastCommit db.catalog m →
        Catalog.Mirrors db.lastCommit db'.catalog m)
  | group (es : List LogEntry) (b : Bytes) (hc : ∀ e ∈ es, e.IsChange) (hw : ∀ e ∈ es, e.Wordy)
      (hlt : db.lastCommit + 1 < firstTransaction)
      (hb : Frame.encodeAll (es ++ [.commit (db.lastCommit + 1)]) = .ok b)
      (hdisk : db'.disk = (db.withLog b).disk) (hlog : db'.log = (db.withLog b).log)
      (hiteration : db'.iteration = db.iteration) (hpolicy : db'.policy = db.policy)
      (hlast : db'.lastCommit = db.lastCommit + 1)
      (hm : ∀ m, Catalog.Mirrors db.lastCommit db.catalog m → ∃ m',
        Replay.applyGroup db.policy (db.lastCommit + 1) m es = (.ok (), m') ∧
          Catalog.Mirrors (db.lastCommit + 1) db'.catalog m')

/-- A database whose tables are mirrored by tables of a start, to which groups are applied. -/
structure Mirrored (start : Stamp) (base : Catalog) (db : Database) (groups : List LogGroup) :
    Prop where
  mirror : ∃ m, Replay.applyAll? db.policy base groups = some m ∧
    Catalog.Mirrors db.lastCommit db.catalog m
  last_eq : max start (LogGroup.last groups) = db.lastCommit

variable {start : Stamp} {base : Catalog} {db db' : Database} {groups : List LogGroup}

theorem Mirrored.silent {id : Stamp} (h : Mirrored start base db groups) (hs : Silent id db db')
    (hid : firstTransaction ≤ id) (hlt : db.lastCommit < firstTransaction) :
    Mirrored start base db' groups where
  mirror := by
    obtain ⟨m, happly, hmir⟩ := h.mirror
    exact ⟨m, hs.policy_eq ▸ happly, hmir.silent hs hid hlt⟩
  last_eq := by rw [h.last_eq, hs.rest_eq]

/-- **A mirror stays one when a group does the same to it.** -/
theorem Mirrored.concat (h : Mirrored start base db groups) {es : List LogEntry}
    (hm : ∀ m, Catalog.Mirrors db.lastCommit db.catalog m → ∃ m',
      Replay.applyGroup db.policy (db.lastCommit + 1) m es = (.ok (), m') ∧
        Catalog.Mirrors (db.lastCommit + 1) db'.catalog m')
    (hlast : db'.lastCommit = db.lastCommit + 1) (hp : db'.policy = db.policy) :
    Mirrored start base db' (groups ++ [.changes es (db.lastCommit + 1)]) where
  mirror := by
    obtain ⟨m, happly, hmir⟩ := h.mirror
    obtain ⟨m', happly', hmir'⟩ := hm m hmir
    refine ⟨m', ?_, hlast ▸ hmir'⟩
    rw [hp, Replay.applyAll?_concat happly, Replay.applyOne?, happly']
  last_eq := by
    have hle : max start (LogGroup.last groups) ≤ db.lastCommit + 1 := by
      rw [h.last_eq]
      exact Nat.le_succ _
    rw [LogGroup.last_append, ← Nat.max_assoc, hlast]
    exact Nat.max_eq_right (Nat.le_trans hle (Nat.le_max_left _ _))

end Database

namespace Session

variable {s : Session} {others : List Transaction}

theorem isChange_entries {e : LogEntry} (he : e ∈ s.entries) : e.IsChange := by
  rcases List.mem_append.mp he with he | he
  · obtain ⟨change, -, hin⟩ := List.mem_flatMap.mp he
    have htarget := target_changeOf hin
    cases e <;> trivial
  · obtain ⟨⟨id, l⟩, -, heq⟩ := List.mem_filterMap.mp he
    rw [insertEntry?_eq] at heq
    split at heq
    · cases heq
    · obtain rfl := Option.some.inj heq
      trivial

theorem wordy_rows {rows : List Nat} : ∀ r ∈ committedRows rows, r < UInt64.size := by
  intro r hr
  have hlocal := (List.mem_filter.mp hr).2
  simp only [isLocalRow, Bool.not_eq_true', decide_eq_false_iff_not, Nat.not_le] at hlocal
  exact Nat.lt_trans hlocal (by decide)

/-- **The entries of a commit have numbers of 64 bits.** -/
theorem wordy_group (h : s.database.Sound (s.transaction :: others)) {time : Stamp}
    (ht : time < UInt64.size) {e : LogEntry} (he : e ∈ s.group time) : e.Wordy := by
  rcases List.mem_append.mp he with he | he
  swap
  · obtain rfl := List.mem_singleton.mp he
    exact ht
  rcases List.mem_append.mp he with he | he
  · obtain ⟨change, hm, hin⟩ := List.mem_flatMap.mp he
    cases change with
    | insert => cases hin
    | delete table rows =>
      rw [changeOf] at hin
      split at hin
      · cases hin
      · obtain rfl := List.mem_singleton.mp hin
        exact wordy_rows
    | update table column rows before =>
      obtain ⟨t, htab, hcolumn, -⟩ := of_update_mem h hm
      obtain ⟨hts, hlen⟩ := h.catalog.tables table t htab
      rw [changeOf] at hin
      split at hin
      · cases hin
      · obtain rfl := List.mem_singleton.mp hin
        refine ⟨Nat.lt_trans ?_ hlen, wordy_rows⟩
        rw [← Table.length_columns hts]
        exact hcolumn
  · obtain ⟨⟨id, l⟩, -, heq⟩ := List.mem_filterMap.mp he
    rw [insertEntry?_eq] at heq
    split at heq
    · cases heq
    · obtain rfl := Option.some.inj heq
      trivial

end Session

namespace System

/-- **What a step does to the log it does to a mirror.** -/
theorem Effect.recorded {s s' : System} (he : Effect s s') (hs : s.Sound) (hr : s.Room) :
    s.database.Recorded s'.database := by
  have hroom := hr.commits
  have hword : s.database.lastCommit + 1 < UInt64.size := Nat.lt_trans hroom (by decide)
  cases he with
  | silent id hid h hnext =>
    refine .nothing (by rw [h.rest_eq]) (by rw [h.rest_eq]) (by rw [h.rest_eq]) h.policy_eq
      (by rw [h.rest_eq]) fun m hm => ?_
    have hlast : s'.database.lastCommit = s.database.lastCommit := by rw [h.rest_eq]
    exact hlast ▸ hm.silent h hid hs.database.last_lt
  | committed k x x' hx hsound h hput =>
    obtain ⟨hdb, -⟩ := session?_eq_some.mp hx
    obtain ⟨decoded, b, c', hb, hc, hdb'⟩ := h.database_eq
    have hs' : s'.database = x'.database := by rw [hput]; rfl
    rw [← hdb] at hword hroom hb hc hdb' ⊢
    rw [hs', hdb']
    exact .group x.entries b (fun e => Session.isChange_entries)
      (fun e he => Session.wordy_group hsound hword (List.mem_append_left _ he)) hroom hb rfl rfl rfl
      rfl rfl fun m hm => hm.commit hsound rfl hroom h.present hc _
  | created name definitions id h =>
    obtain ⟨t, b, c', hnew, hb, hinsert, hdb'⟩ := Database.createTable_ok h
    obtain ⟨hts, -, hdefs, -, hdropped, hrows, -⟩ := Table.new_ok hs.capacity hnew
    have hlen : t.definitions.length < UInt64.size :=
      hdefs ▸ Database.length_definitions_lt hb
    rw [hdb']
    refine .group [.createTable name definitions] b (by simp [LogEntry.IsChange])
      (by simp [LogEntry.Wordy]) hroom hb rfl rfl rfl rfl rfl fun m hm => ?_
    obtain ⟨id', m', hm', hmirrors⟩ :=
      (hm.succ hs.database rfl hroom).insert hts hlen hdropped hrows hinsert
    refine ⟨m', ?_, hmirrors⟩
    have happly : Replay.apply s.database.policy (s.database.lastCommit + 1) m
        (.createTable name definitions) = (.ok (), m') := by
      rw [Replay.apply, hnew, ok_bind, hm']
      rfl
    rw [Replay.applyGroup, happly]
    rfl
  | dropped name h =>
    obtain ⟨id, b, c', hb, hremove, hdb'⟩ := Database.dropTable_ok h
    rw [hdb']
    refine .group [.dropTable name] b (by simp [LogEntry.IsChange])
      (by simp [LogEntry.Wordy]) hroom hb rfl rfl rfl rfl rfl fun m hm => ?_
    obtain ⟨id', m', hm', hmirrors⟩ :=
      (hm.succ hs.database rfl hroom).remove hs.database.catalog hremove
    refine ⟨m', ?_, hmirrors⟩
    have happly : Replay.apply s.database.policy (s.database.lastCommit + 1) m
        (.dropTable name) = (.ok (), m') := by
      rw [Replay.apply, hm']
      rfl
    rw [Replay.applyGroup, happly]
    rfl

/-- **What a step adds to the log** makes the tables from those of the mirror. -/
theorem Effect.follows {s s' : System} {start : Stamp} {base : Catalog}
    {all groups : List LogGroup} (he : Effect s s') (hs : s.Sound) (hr : s.Room)
    (hl : s.database.Logs all) (hm : s.database.Mirrored start base groups) :
    ∃ more, (∀ g ∈ more, ∃ es time, g = .changes es time) ∧ s'.database.Logs (all ++ more) ∧
      s'.database.Mirrored start base (groups ++ more) := by
  cases he.recorded hs hr with
  | nothing hdisk hlog hiteration hpolicy hlast hmirrors =>
    refine ⟨[], by simp, ?_, ?_⟩
    · rw [List.append_nil]
      exact hl.congr hlog hdisk
    · rw [List.append_nil]
      obtain ⟨m, happly, hmir⟩ := hm.mirror
      exact ⟨⟨m, hpolicy ▸ happly, hlast ▸ hmirrors m hmir⟩, hlast ▸ hm.last_eq⟩
  | group es b hc hw hlt hb hdisk hlog hiteration hpolicy hlast hmirrors =>
    have hword : s.database.lastCommit + 1 < UInt64.size := Nat.lt_trans hlt (by decide)
    refine ⟨[.changes es (s.database.lastCommit + 1)], fun g hg => ⟨_, _, List.mem_singleton.mp hg⟩,
      ?_, hm.concat hmirrors hlast hpolicy⟩
    have hlogged := hl.withLog (g := .changes es (s.database.lastCommit + 1)) hc (fun e he => by
      rcases List.mem_append.mp he with he | he
      · exact hw e he
      · rw [List.mem_singleton.mp he]
        exact hword) hb
    exact hlogged.congr hlog hdisk

end System
end ColumnStore
