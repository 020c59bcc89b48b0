/-
# Steady systems

A steady system is sound, its tables are guarded, and its directory can be opened again at any time.
Every step of its users leaves it steady (`System.Steady.step`).
-/

import ColumnStore.Proofs.Database.Reopening

namespace ColumnStore

/-! ## The log -/

theorem LogGroup.times_append (groups more : List LogGroup) :
    times (groups ++ more) = times groups ++ times more := List.flatMap_append ..

/-- **A later group keeps the times in order.** -/
theorem Log.Timely.concat {iteration : Nat} {last : Stamp} {gs : List (LogGroup × Nat)}
    (h : Timely iteration last gs) (es : List LogEntry) (stop : Nat) :
    Timely iteration (last + 1) (gs ++ [(.changes es (last + 1), stop)]) := by
  have hbehind : behind iteration (gs ++ [(.changes es (last + 1), stop)]) =
      behind iteration gs ++ [(.changes es (last + 1), stop)] :=
    behind_append (fun g hg => by rw [List.mem_singleton.mp hg]; rfl) gs
  have htimes : LogGroup.times ((behind iteration (gs ++ [(.changes es (last + 1), stop)])).map (·.1)) =
      LogGroup.times ((behind iteration gs).map (·.1)) ++ [last + 1] := by
    rw [hbehind, List.map_append, LogGroup.times_append]
    rfl
  refine ⟨?_, fun t ht => ?_⟩
  · rw [htimes]
    refine List.pairwise_append.mpr ⟨h.ordered, List.pairwise_singleton _ _, fun t ht u hu => ?_⟩
    rw [List.mem_singleton.mp hu]
    exact Nat.le_succ_of_le (h.le_last t ht)
  · rw [htimes] at ht
    rcases List.mem_append.mp ht with ht | ht
    · exact Nat.le_succ_of_le (h.le_last t ht)
    · rw [List.mem_singleton.mp ht]

namespace Database

variable {db db' : Database}

/-- Another state of what is not on the disk. -/
theorem Durable.congr (h : db.Durable) (hdisk : db'.disk = db.disk) (hlog : db'.log = db.log)
    (hiteration : db'.iteration = db.iteration) (hlast : db'.lastCommit = db.lastCommit) :
    db'.Durable where
  whole := hdisk ▸ h.whole
  draft := hdisk ▸ h.draft
  log := by
    rw [hdisk, hlog, hiteration, hlast]
    exact h.log
  anchors := by
    rw [hdisk, hlog, hiteration, hlast]
    exact h.anchors

/-- **A directory to whose log a commit is added** can be opened again. -/
theorem Durable.commit (h : db.Durable) (es : List LogEntry) (hs : ∀ e ∈ es, e.IsChange)
    (hw : ∀ e ∈ es, e.Wordy) (hlast : db.lastCommit + 1 < UInt64.size) {b : Bytes}
    (hb : Frame.encodeAll (es ++ [.commit (db.lastCommit + 1)]) = .ok b) (c : Catalog) :
    Durable { (db.withLog b).publish (db.lastCommit + 1) with catalog := c } := by
  obtain ⟨gs, hopen, htimely⟩ := h.log
  obtain ⟨stop, hopen'⟩ := hopen.append (g := .changes es (db.lastCommit + 1)) hs (fun e he => by
    rcases List.mem_append.mp he with he | he
    · exact hw e he
    · rw [List.mem_singleton.mp he]
      exact hlast) hb
  have hsame := Disk.SameBut.writeAt db.log.file db.disk db.log.length b
  have hentry := Disk.sameExcept_of_entries hsame.entries_eq []
  refine ⟨h.whole.sameBut hsame, h.draft.grows_log h.whole hopen
    (.of_entries hsame.entries_eq) (hentry _ List.not_mem_nil) (.sameBut hsame),
    ⟨_, hopen', htimely.concat es stop⟩, ?_⟩
  exact (h.anchors.of_same (.of_grows h.whole (hentry _ List.not_mem_nil)
    (fun _ => hentry _ List.not_mem_nil) (.sameBut hsame))).mono (Nat.le_succ _)

end Database

namespace System

/-- A system on which everything is in order. -/
structure Steady (s : System) : Prop where
  sound : s.Sound
  guarded : s.Guarded
  policies : ∀ (id : Nat) (t : Table), s.database.catalog.tables[id]? = some t →
    t.policy = s.database.policy
  durable : s.database.Durable

variable {s s' : System}

theorem Effect.durable (he : Effect s s') (hs : s.Sound) (hr : s.Room) (h : s.database.Durable) :
    s'.database.Durable := by
  cases he.recorded hs hr with
  | nothing hdisk hlog hiteration _ hlast _ => exact h.congr hdisk hlog hiteration hlast
  | group es b hc hw hlt hb hdisk hlog hiteration _ hlast _ =>
    exact (h.commit es hc hw (Nat.lt_trans hlt (by decide)) hb s'.database.catalog).congr hdisk hlog
      hiteration hlast

theorem Effect.policies (he : Effect s s') (hs : s.Sound)
    (h : ∀ (id : Nat) (t : Table), s.database.catalog.tables[id]? = some t →
      t.policy = s.database.policy) :
    ∀ (id : Nat) (t : Table), s'.database.catalog.tables[id]? = some t →
      t.policy = s'.database.policy := by
  intro j u hu
  cases he with
  | silent id hid hsilent hnext =>
    obtain ⟨t, ht, hk, -⟩ := hsilent.each.of_some hu
    rw [hk.policy_eq, h j t ht, hsilent.policy_eq]
  | committed k x x' hx hsound hcommits hput =>
    obtain ⟨hdb, -⟩ := session?_eq_some.mp hx
    obtain ⟨decoded, b, c', -, heach, hdb'⟩ := hcommits.database_eq
    have hs' : s'.database = x'.database := by rw [hput]; rfl
    rw [hs', hdb'] at hu ⊢
    obtain ⟨t, ht, hc⟩ := heach.of_some hu
    rw [hdb] at ht
    rw [hc.policy_eq, h j t ht]
    change s.database.policy = x.database.policy
    rw [hdb]
  | created name definitions id hc =>
    obtain ⟨t, b, c', hnew, -, hinsert, hdb'⟩ := Database.createTable_ok hc
    obtain ⟨-, -, -, hpolicy, -⟩ := Table.new_ok hs.capacity hnew
    obtain ⟨-, -, rfl⟩ := Catalog.insert_ok hinsert
    rw [hdb'] at hu ⊢
    dsimp only at hu
    rw [Array.getElem?_push] at hu
    split at hu
    · rw [← Option.some.inj hu]
      exact hpolicy
    · exact h j u hu
  | dropped name hd =>
    obtain ⟨id, b, c', -, hremove, hdb'⟩ := Database.dropTable_ok hd
    obtain ⟨hget, rfl⟩ := Catalog.remove_ok hremove
    obtain ⟨t, ht, -⟩ := hs.database.catalog.named name id (Catalog.mem_of_get hget)
    rw [hdb'] at hu ⊢
    dsimp only at hu
    rw [Catalog.table_of_some ht, Catalog.tables_setTable ht] at hu
    split at hu
    · rw [← Option.some.inj hu]
      exact h id t ht
    · exact h j u hu

/-- **Every step** but a commit that is lost leaves a steady system. -/
theorem Steady.step (h : s.Steady) (hr : s.Room) {a : Action} (ha : a.Typed) {o : Outcome}
    (hs : s.step a = some (o, s')) (hlost : ∀ e, o ≠ .lost e) : s'.Steady := by
  obtain ⟨hsound, heffect⟩ := step_cases h.sound hr ha hs hlost
  obtain ⟨who, hprogress, -⟩ := (step_deed h.sound hr ha hs hlost).progress h.sound
  exact ⟨hsound, hprogress.guarded h.sound hsound hr h.guarded,
    heffect.policies h.sound h.policies, heffect.durable h.sound hr h.durable⟩

/-- **An idle database whose blocks can be read** is steady, without any transaction. -/
theorem steady_of_idle {db : Database} (h : db.Idle) (hr : db.Readable)
    (hp : 0 < db.policy.capacity) (hd : db.Durable) : Steady ⟨db, []⟩ where
  sound := ⟨h.sound hr, fun _ hx => absurd hx List.not_mem_nil, hp⟩
  guarded id t ht := (h.catalog.tables id t ht).2.guarded
  policies id t ht := (h.catalog.tables id t ht).1
  durable := hd

end System
end ColumnStore
