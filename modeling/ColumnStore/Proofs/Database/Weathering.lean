/-
# Databases on damaged storage

A database goes on while blocks of its files are damaged.  What tables and records owe each other is
kept by every operation then, too (`System.Weathered.formed`), and so a write that is refused leaves
everything as it was (`System.refused_writes_spare`).
-/

import ColumnStore.Proofs.Database.Histories
import ColumnStore.Proofs.Database.Refusals

namespace ColumnStore

/-! ## Committing -/

namespace Table

/-- Changes of rows that are there leave a column with the same values under them. -/
theorem keeps_changeColumn {g : Column → Nat → Except StorageError Column}
    (hg : ∀ (c : Column) (row : Nat), c.Sound → row < c.rows →
      ∃ c', g c row = .ok c' ∧ Column.Keeps c c')
    {c : Column} (h : c.Sound) {rows : List Nat} (hrows : ∀ r ∈ rows, r < c.rows) :
    Column.Keeps c (changeColumn g c rows).2 := by
  induction rows generalizing c with
  | nil => exact Column.Keeps.refl h
  | cons row rest ih =>
    obtain ⟨c₁, he, hk⟩ := hg c row h (hrows row List.mem_cons_self)
    rw [changeColumn, he]
    exact hk.trans (ih hk.sound fun r hr => hk.rows_eq ▸ hrows r (List.mem_cons_of_mem _ hr))

theorem keeps_commitUpdate {t : Table} (h : t.Sound) (i : Nat) {rows : List Nat}
    (hrows : ∀ r ∈ rows, r < t.rows) (transaction time : Stamp) :
    Keeps t (t.commitUpdate i rows transaction time).2 := by
  unfold commitUpdate
  cases hc : t.columns[i]? with
  | none =>
    rw [column_of_none hc]
    exact Keeps.refl h
  | some c =>
    obtain ⟨_, -, -, hd⟩ := holds_of_some h hc
    rw [column_eq_ok.mpr hc]
    refine keeps_withColumn h hc (keeps_changeColumn (fun c row hs hrow => ?_) hd.sound fun r hr =>
      hd.rows_eq ▸ hrows r hr)
    obtain ⟨c', he, hk, -⟩ := Column.commitUpdate_ok hs hrow transaction time
    exact ⟨c', he, hk⟩

end Table

namespace Session

variable {s s' : Session} {table : TableId} {t : Table}

/-- **A change is given the time of the commit** in its table. -/
theorem applyChange_keeps {db : Database} (hc : db.catalog.Formed) {change : UndoRecord}
    (hw : change.Within db.catalog) (id time : Stamp) :
    ∃ c', (applyChange id time db change).2 = { db with catalog := c' } ∧ db.catalog.Keeps c' := by
  cases change with
  | insert table start n => exact ⟨_, rfl, hc.keeps_refl⟩
  | delete table rows =>
    obtain ⟨t, ht, hrows⟩ := hw
    obtain ⟨t', he, hr⟩ := Table.commitDelete_ok (hc table t ht) hrows id time
    exact ⟨_, by rw [applyChange, Database.change_eq ht, he], hc.keeps_setTable ht hr.keeps⟩
  | update table column rows before =>
    obtain ⟨t, ht, -, -, hrows⟩ := hw
    exact ⟨_, by rw [applyChange, Database.change_eq ht],
      hc.keeps_setTable ht (Table.keeps_commitUpdate (hc table t ht) column hrows id time)⟩

theorem applyChanges_keeps {db : Database} (hc : db.catalog.Formed) {changes : List UndoRecord}
    (hw : ∀ change ∈ changes, change.Within db.catalog) (id time : Stamp) :
    ∃ c', (Attempt.all (applyChange id time) db changes).2 = { db with catalog := c' } ∧
      db.catalog.Keeps c' := by
  induction changes generalizing db with
  | nil => exact ⟨_, rfl, hc.keeps_refl⟩
  | cons change rest ih =>
    obtain ⟨c₁, he, hk⟩ := applyChange_keeps hc (hw change List.mem_cons_self) id time
    obtain ⟨c', he', hk'⟩ := @ih { db with catalog := c₁ } (hk.formed hc) fun ch hm =>
      (hw ch (List.mem_cons_of_mem _ hm)).grows hk.grows
    refine ⟨c', ?_, hk.trans hk'⟩
    rw [Attempt.all]
    dsimp only
    rw [he, he']

/-- **Tables that have gained the local rows** have grown. -/
theorem grows_of_gains {x : Transaction} {c c' : Catalog} {undo : List UndoRecord}
    (h : x.Formed c undo) (hc : c.Formed) {time : Stamp}
    (hg : Catalog.Each (Table.Gains x.locals time) c c') : c.Grows c' ∧ c'.Formed := by
  have hgain : ∀ (j : Nat) (t t' : Table), c.tables[j]? = some t →
      Table.Gains x.locals time j t t' → t'.Sound ∧ t'.definitions = t.definitions ∧
        t'.columns.length = t.columns.length ∧ t.rows ≤ t'.rows := by
    intro j t t' ht hg
    have hts := hc j t ht
    unfold Table.Gains at hg
    cases hl : x.locals.get? j with
    | none =>
      rw [hl] at hg
      obtain rfl := hg
      exact ⟨hts, rfl, rfl, Nat.le_refl _⟩
    | some l =>
      rw [hl] at hg
      dsimp only at hg
      split at hg
      · obtain rfl := hg
        exact ⟨hts, rfl, rfl, Nat.le_refl _⟩
      · obtain ⟨range, happend⟩ := hg
        have hadds := Table.append_ok hts (LocalRows.holdRows_live (h.local_ok ht hl).1).1 happend
        exact ⟨hadds.sound, hadds.definitions_eq, hadds.columns.length_eq.symm,
          hadds.rows_eq ▸ Nat.le_add_right _ _⟩
  refine ⟨fun j t ht => ?_, fun j t' ht' => ?_⟩
  · obtain ⟨t', ht', hr⟩ := hg.tables j t ht
    exact ⟨t', ht', (hgain j t t' ht hr).2⟩
  · obtain ⟨t, ht, hr⟩ := hg.of_some ht'
    exact (hgain j t t' ht hr).1

/-- **Changes that are in the log are applied.** -/
theorem apply_leaves (hc : s.database.catalog.Formed)
    (h : s.transaction.Formed s.database.catalog s.transaction.undo) {time : Stamp}
    (hok : s.apply time = (.ok (), s')) :
    ∃ c', s' = { s with database := { s.database with catalog := c' } } ∧
      s.database.catalog.Grows c' ∧ c'.Formed := by
  unfold apply onDatabase at hok
  rcases hl : Attempt.all (applyLocals time) s.database s.transaction.locals with ⟨e | ⟨⟨⟩⟩, db⟩
  · simp only [hl] at hok
    cases (Prod.mk.inj hok).1
  · simp only [hl] at hok
    obtain ⟨hdb, heach⟩ := applyAllLocals_ok h.locals.nodup (fun table hm => by
      obtain ⟨⟨table', l⟩, hml, rfl⟩ := List.mem_map.mp hm
      have hrows := h.locals.rows table'
      rw [LocalTables.get?_of_mem h.locals.nodup hml] at hrows
      obtain ⟨⟨types, htypes, -⟩, -⟩ := hrows
      exact table_of_isSome (c := s.database.catalog) (by rw [htypes]; rfl)) hl
    obtain ⟨hgrows, hformed⟩ := grows_of_gains h hc heach
    obtain ⟨c', he, hk⟩ := applyChanges_keeps hformed (fun ch hm => (h.within ch hm).grows hgrows)
      s.transaction.id time
    refine ⟨c', ?_, hgrows.trans hk.grows, hk.formed hformed⟩
    rw [← (Prod.mk.inj hok).2, he, hdb]

/-- **Changes are written to the log and applied,** unless they are lost: the log is written, but the
rows do not fit into memory. -/
theorem commitChanges_leaves (h : s.Formed) (hw : s.transaction.Writing)
    (hlost : ∀ e s', s.commitChanges = (.error e, s') → s'.transaction.state ≠ .committed) :
    Leaves s s.commitChanges.2 := by
  unfold commitChanges at hlost ⊢
  cases htime : s.database.nextCommit with
  | error e => exact leaves_refl h
  | ok time =>
    rw [htime] at hlost
    simp only [onDatabase, Database.read] at hlost ⊢
    generalize s.logEntries s.database.source time = x at hlost ⊢
    obtain ⟨r, decoded⟩ := x
    cases r with
    | error e => exact ⟨rfl, Catalog.Grows.refl _, h.catalog, h.transaction⟩
    | ok entries =>
      dsimp only at hlost ⊢
      cases ha : (s.database.remember decoded).appendLog entries with
      | error e => exact ⟨rfl, Catalog.Grows.refl _, h.catalog, h.transaction⟩
      | ok db =>
        rw [ha] at hlost
        obtain ⟨b, -, rfl⟩ := Database.appendLog_ok ha
        dsimp only [commitLogged] at hlost ⊢
        rcases happ : apply ⟨(s.database.remember decoded).withLog b, s.transaction⟩ time with
          ⟨e | ⟨⟨⟩⟩, s'⟩
        · rw [happ] at hlost
          exact absurd rfl (hlost _ _ rfl)
        · obtain ⟨c', rfl, hgrows, hformed⟩ := apply_leaves
            (s := ⟨(s.database.remember decoded).withLog b, s.transaction⟩) h.catalog
            (h.transaction hw.active) happ
          exact ⟨rfl, hgrows, hformed, by rintro ⟨⟩⟩

/-- **A commit** that is not lost leaves tables that may have grown. -/
theorem commit_leaves (h : s.Formed)
    (hlost : ∀ e s', s.commit = (.error e, s') → s.transaction.state = .active →
      s'.transaction.state ≠ .committed) : Leaves s s.commit.2 := by
  unfold commit at hlost ⊢
  refine leaves_whileActive h fun hw he => ?_
  rw [he] at hlost
  cases hd : s.droppedTable? with
  | some name =>
    obtain ⟨hleaves, -⟩ := rollback_runs h
    dsimp only
    generalize s.rollback = y at hleaves
    obtain ⟨r, s₁⟩ := y
    cases r <;> exact hleaves
  | none =>
    rw [hd] at hlost
    dsimp only at hlost ⊢
    split
    · exact ⟨rfl, Catalog.Grows.refl _, h.catalog, fun ha => nomatch ha⟩
    · rename_i hempty
      rw [if_neg hempty] at hlost
      exact commitChanges_leaves h hw fun e s' he => hlost e s' he hw.active

end Session

/-! ## Tables that come and go -/

namespace Catalog

variable {c c' : Catalog}

/-- **A table is added** beside the others. -/
theorem Formed.insert (h : c.Formed) {t : Table} (ht : t.Sound) {id : TableId}
    (hok : c.insert t = .ok (id, c')) : c'.Formed ∧ c.Grows c' := by
  obtain ⟨-, -, rfl⟩ := insert_ok hok
  refine ⟨fun j u hu => ?_, fun j u hu => ⟨u, ?_, rfl, rfl, Nat.le_refl _⟩⟩
  · rw [getElem?_push] at hu
    split at hu
    · obtain rfl := Option.some.inj hu
      exact ht
    · exact h j u hu
  · rw [getElem?_push, if_neg (Nat.ne_of_lt (lt_of_some hu))]
    exact hu

/-- **A table that is dropped** is there for those who have it. -/
theorem Formed.remove (h : c.Formed) {name : String} {id : TableId}
    (hok : c.remove name = .ok (id, c')) : c'.Formed ∧ c.Grows c' := by
  obtain ⟨-, rfl⟩ := remove_ok hok
  cases ht : c.tables[id]? with
  | none =>
    have hsize := Array.getElem?_eq_none_iff.mp ht
    have heq : ∀ t, (c.setTable id t).tables = c.tables := fun t =>
      Array.setIfInBounds_eq_of_size_le hsize
    dsimp only [Formed, Grows]
    rw [heq]
    exact ⟨h, Grows.refl c⟩
  | some t =>
    rw [table_of_some ht]
    refine ⟨fun j u hu => ?_, fun j u hu => ?_⟩
    · rw [tables_setTable ht] at hu
      split at hu
      · obtain rfl := Option.some.inj hu
        exact (h id t ht).withDropped true
      · exact h j u hu
    · by_cases hj : j = id
      · subst hj
        obtain rfl := Option.some.inj (ht.symm.trans hu)
        exact ⟨{ t with dropped := true }, by rw [tables_setTable ht, if_pos rfl], rfl, rfl,
          Nat.le_refl _⟩
      · exact ⟨u, by rw [tables_setTable ht, if_neg hj, hu], rfl, rfl, Nat.le_refl _⟩

end Catalog

/-- **A scan** keeps what it has read, and nothing else. -/
theorem Database.scanTable_remembers (db : Database) (x : Transaction) (id : TableId)
    (columns : List Nat) (filters : List Filter) (vectorSize : Nat) :
    ∃ decoded, (db.scanTable x id columns filters vectorSize).2 = db.remember decoded := by
  unfold scanTable
  split
  · exact ⟨[], rfl⟩
  · rename_i scan _
    refine ⟨(scan.run db.source).decoded, ?_⟩
    unfold read
    dsimp only
    split <;> rename_i heq <;> exact (Prod.mk.inj heq).2.symm

namespace System

/-! ## Systems -/

/-- A system whose tables are sound and whose active transactions find their changes again. -/
structure Formed (s : System) : Prop where
  capacity : 0 < s.database.policy.capacity
  catalog : s.database.catalog.Formed
  transactions : ∀ x ∈ s.transactions, x.state = .active → x.Formed s.database.catalog x.undo

variable {s s' : System} {k : Nat} {x : Session}

theorem Formed.session (h : s.Formed) (hx : s.session? k = some x) : x.Formed := by
  obtain ⟨hdb, htr⟩ := session?_eq_some.mp hx
  refine ⟨by rw [hdb]; exact h.catalog, fun ha => ?_⟩
  rw [hdb]
  exact h.transactions _ (List.mem_of_getElem? htr) ha

/-- **What one transaction does leaves the others theirs.** -/
theorem Formed.put (h : s.Formed) (hx : s.session? k = some x) {x' : Session}
    (hl : Session.Leaves x x') : (s.put k x').Formed := by
  obtain ⟨hdb, htr⟩ := session?_eq_some.mp hx
  have hgrows := hl.grows
  rw [hdb] at hgrows
  refine ⟨?_, hl.formed.catalog, fun y hy ha => ?_⟩
  · change 0 < x'.database.policy.capacity
    rw [hl.policy_eq, hdb]
    exact h.capacity
  · rcases List.mem_or_eq_of_mem_set hy with hy | rfl
    · exact (h.transactions y hy ha).grows hgrows
    · exact hl.formed.transaction ha

/-- **Every step** but a commit that is lost takes a formed system to a formed one. -/
theorem Formed.step (h : s.Formed) {a : Action} (ha : a.Typed) {o : Outcome}
    (hs : s.step a = some (o, s')) (hlost : ∀ e, o ≠ .lost e) : s'.Formed := by
  cases a with
  | createTable name definitions =>
    rcases createTable_eq_some hs with ⟨e, -, rfl⟩ | ⟨id, db, hc, -, rfl⟩
    · exact h
    · obtain ⟨t, b, c', hnew, -, hinsert, hdb⟩ := Database.createTable_ok hc
      obtain ⟨hts, -⟩ := Table.new_ok h.capacity hnew
      obtain ⟨hcatalog, hgrows⟩ := h.catalog.insert hts hinsert
      rw [hdb]
      exact ⟨h.capacity, hcatalog, fun x hx ha => (h.transactions x hx ha).grows hgrows⟩
  | dropTable name =>
    rcases dropTable_eq_some hs with ⟨e, -, rfl⟩ | ⟨db, hd, -, rfl⟩
    · exact h
    · obtain ⟨id, b, c', -, hremove, rfl⟩ := Database.dropTable_ok hd
      obtain ⟨hcatalog, hgrows⟩ := h.catalog.remove hremove
      exact ⟨h.capacity, hcatalog, fun x hx ha => (h.transactions x hx ha).grows hgrows⟩
  | «begin» =>
    simp only [System.step, Option.some.injEq, Prod.mk.injEq] at hs
    obtain ⟨-, rfl⟩ := hs
    refine ⟨h.capacity, h.catalog, fun x hx ha => ?_⟩
    rcases List.mem_append.mp hx with hx | hx
    · exact h.transactions x hx ha
    · obtain rfl := List.mem_singleton.mp hx
      exact ⟨.nil, ⟨List.nodup_nil, fun _ => rfl⟩, fun _ hm => absurd hm List.not_mem_nil⟩
  | insert k table chunk =>
    obtain ⟨x, t, hx, ht, -, rfl⟩ := workOn_eq_some hs
    exact h.put hx (Session.insert_runs (h.session hx) ht chunk).leaves
  | delete k table rows =>
    obtain ⟨x, t, hx, ht, -, rfl⟩ := workOn_eq_some hs
    exact h.put hx (Session.delete_runs (h.session hx) ht rows).leaves
  | update k table column rows values =>
    obtain ⟨x, t, hx, ht, -, rfl⟩ := workOn_eq_some hs
    exact h.put hx (Session.update_runs (h.session hx) ht column rows ha).leaves
  | scan k table columns filters vectorSize =>
    obtain ⟨x, t, hx, ht, -, rfl⟩ := workOn_eq_some hs
    have hf := h.session hx
    obtain ⟨decoded, hscan⟩ := Database.scanTable_remembers x.database x.transaction table columns
      filters vectorSize
    refine h.put hx ?_
    dsimp only [Session.onDatabase]
    rw [hscan]
    exact ⟨rfl, Catalog.Grows.refl _, hf.catalog, hf.transaction⟩
  | commit k =>
    obtain ⟨x, hx, rfl, -, hnot⟩ := commit_eq_some hs hlost
    exact h.put hx (Session.commit_leaves (h.session hx) hnot)
  | rollback k =>
    obtain ⟨x, hx, -, rfl⟩ := work_eq_some hs
    exact h.put hx (Session.rollback_runs (h.session hx)).1
  | cancel k =>
    unfold System.step at hs
    obtain ⟨x, hx, -, rfl⟩ := work_eq_some hs
    have hf := h.session hx
    exact h.put hx ⟨rfl, Catalog.Grows.refl _, hf.catalog, fun ha =>
      (hf.transaction ha).of_locals rfl⟩
  | abandon k =>
    unfold System.step at hs
    obtain ⟨x, hx, -, rfl⟩ := work_eq_some hs
    refine h.put hx ?_
    have hf := h.session hx
    dsimp only [Session.abandon]
    split
    · exact (Session.rollback_runs hf).1
    · exact Session.leaves_refl hf

/-- **A sound system is formed.** -/
theorem Sound.formed (h : s.Sound) : s.Formed where
  capacity := h.capacity
  catalog id t ht := (h.database.catalog.tables id t ht).1
  transactions y hy hactive := by
    obtain ⟨k, hk⟩ := List.mem_iff_getElem?.mp hy
    have hsound : (⟨s.database, y⟩ : Session).Sound (s.others k) :=
      h.session (session?_eq_some.mpr ⟨rfl, hk⟩)
    have hdb := hsound.active hactive
    have hrec := hdb.recorded _ List.mem_cons_self
    exact ⟨hrec.undoable, hrec.locals, Session.undo_within hdb⟩

/-- The states that a database comes to: those of any history, and from then on those after steps
between which the files may be changed in any way. -/
inductive Weathered : System → Prop
  | history {es : List Event} {s : System} (h : History es s) (hn : es.length < firstTransaction) :
    Weathered s
  | step {s s' : System} {a : Action} {o : Outcome} (h : Weathered s) (ha : a.Typed)
      (hs : s.step a = some (o, s')) (hlost : ∀ e, o ≠ .lost e) : Weathered s'
  | damage {s : System} (h : Weathered s) (d : Disk) :
    Weathered { s with database := { s.database with disk := d } }

/-- **Every state is formed,** whatever can be read of it. -/
theorem Weathered.formed (h : s.Weathered) : s.Formed := by
  induction h with
  | history h hn => exact (h.steadyAfter hn).steady.sound.formed
  | step _ ha hs hlost ih => exact ih.step ha hs hlost
  | damage _ d ih => exact ⟨ih.capacity, ih.catalog, ih.transactions⟩

end System
end ColumnStore
