/-
# Histories

A database is opened in an empty directory.  Its users begin transactions, write, commit and roll back
in any order; checkpoints are taken and refused; and the directory is opened again, with any settings.
In every state on the way each uncommitted mark belongs to one active transaction, which can take it
back (`System.owned_of_history`, `System.rollback_of_history`).
-/

import ColumnStore.Proofs.Database.Checkpointing
import ColumnStore.Proofs.Database.Conflicts
import ColumnStore.Proofs.Database.Erasing

namespace ColumnStore

theorem Disk.whole_fresh : Disk.fresh.Whole := by
  intro p file hp
  rw [Disk.entry?] at hp
  split at hp
  · cases hp
  · rw [Disk.fresh, List.lookup_cons] at hp
    split at hp
    · obtain rfl : 0 = file := by simpa using hp
      decide
    · rw [List.lookup_cons] at hp
      split at hp <;> simp at hp

theorem Disk.short_of_all {d : Disk}
    (h : (d.contents.all fun b => decide (b.length ≤ Bytes.longest)) = true) (file : FileId) :
    (d.bytes file).length ≤ Bytes.longest := by
  rw [Array.all_eq_true'] at h
  rw [bytes, Array.getD_eq_getD_getElem?]
  cases hb : d.contents[file]? with
  | none => exact Nat.zero_le _
  | some b => exact of_decide_eq_true (h b (Array.mem_of_getElem? hb))

namespace System

/-! ## Events -/

/-- What happens to a database. -/
inductive Event where
  | act (a : Action)
  | checkpoint
  /-- Nothing is left but the directory, and it is opened again. -/
  | reopen (settings : Settings)

/-- An event takes a system to another one.  A commit whose rows do not fit into memory when they are
in the log already is none. -/
inductive Happens : System → Event → System → Prop
  | act {s s' : System} {a : Action} {o : Outcome} (ha : a.Typed) (hs : s.step a = some (o, s'))
      (hlost : ∀ e, o ≠ .lost e) : Happens s (.act a) s'
  | checkpoint (s : System) : Happens s .checkpoint s.checkpoint
  | reopen {s : System} {settings : Settings} {db : Database} {d : Disk}
      (h : Database.openDirectory s.database.disk settings = (.ok db, d)) :
      Happens s (.reopen settings) ⟨db, []⟩

/-- All blocks can be read, and files and row stamps can be held in memory. -/
structure Able (s : System) : Prop where
  readable : s.database.Readable
  short : s.database.Short
  compact : s.database.Compact

/-- What can happen to a database in a directory that was empty, the oldest event first. -/
inductive History : List Event → System → Prop
  | opened {settings : Settings} {db : Database} {d : Disk}
      (h : Database.openDirectory {} settings = (.ok db, d)) : History [] ⟨db, []⟩
  | snoc {es : List Event} {s s' : System} {e : Event} (h : History es s) (hm : Happens s e s')
      (ha : s'.Able) : History (es ++ [e]) s'

/-! ## Steadiness -/

/-- A steady system that has made no more than `n` commits and begun no more than `n` transactions. -/
structure SteadyAfter (s : System) (n : Nat) : Prop where
  steady : s.Steady
  commits : s.database.lastCommit ≤ n
  transactions : s.database.nextTransaction ≤ firstTransaction + n

variable {s s' : System} {n : Nat}

theorem SteadyAfter.room (h : s.SteadyAfter n) (hn : n + 1 < firstTransaction) : s.Room where
  commits := Nat.lt_of_le_of_lt (Nat.add_le_add_right h.commits 1) hn
  transactions := Nat.lt_of_le_of_lt h.transactions
    (Nat.lt_trans (Nat.add_lt_add_left (Nat.lt_of_succ_lt hn) _) (by decide))

/-- **A database in an empty directory** is steady. -/
theorem steadyAfter_open {settings : Settings} {db : Database} {d : Disk}
    (h : Database.openDirectory {} settings = (.ok db, d)) : SteadyAfter ⟨db, []⟩ 0 := by
  obtain ⟨policy, hp, rfl⟩ := Database.of_openDirectory_empty h
  have hidle : (Database.fresh settings policy).Idle := {
    catalog := Catalog.settled_empty ..
    last_lt := (by decide : 0 < firstTransaction)
    next_ge := Nat.le_refl _
    next_le := (by decide : firstTransaction ≤ neverDeleted)
    active := rfl
    kept := Decoded.kept_nil _ _ }
  have hdurable : (Database.fresh settings policy).Durable := {
    whole := Disk.whole_fresh
    draft := .of_none (by decide +kernel : Disk.fresh.entry? [Manifest.draftPath] = none)
    log := ⟨[], Database.open_fresh _, .nil, fun t ht => absurd ht List.not_mem_nil⟩
    anchors := .nothing (by decide +kernel : Disk.fresh.entry? [Manifest.path] = none) rfl }
  exact ⟨steady_of_idle hidle (fun id t ht => by simp [Database.fresh] at ht)
    (Database.capacity_pos hp) hdurable, Nat.le_refl _, Nat.le_refl _⟩

/-- **Every event leaves a steady system.** -/
theorem SteadyAfter.happens (h : s.SteadyAfter n) (hn : n + 1 < firstTransaction) {e : Event}
    (hm : Happens s e s') (hshort : s.database.Short) (ha : s'.Able) : s'.SteadyAfter (n + 1) := by
  have hr := h.room hn
  cases hm with
  | act htyped hs hlost =>
    obtain ⟨-, heffect⟩ := step_cases h.steady.sound hr htyped hs hlost
    obtain ⟨hlast, hnext⟩ := heffect.counters
    exact ⟨h.steady.step hr htyped hs hlost, Nat.le_trans hlast (Nat.add_le_add_right h.commits 1),
      Nat.le_trans hnext (Nat.add_le_add_right h.transactions 1)⟩
  | checkpoint =>
    obtain ⟨hsteady, hcounts⟩ := h.steady.checkpoint hshort ha.compact ha.readable
    refine ⟨hsteady, ?_, ?_⟩
    · rw [hcounts.last_eq]
      exact Nat.le_succ_of_le h.commits
    · rw [hcounts.next_eq]
      exact Nat.le_succ_of_le h.transactions
  | reopen hopen =>
    obtain ⟨hdurable, hidle, hlast, hnext, hpolicy⟩ :=
      h.steady.durable.reopen h.steady.sound.database.last_lt hopen
    refine ⟨steady_of_idle hidle ha.readable (Database.capacity_pos hpolicy) hdurable, ?_, ?_⟩
    · exact Nat.le_trans hlast (Nat.le_succ_of_le h.commits)
    · exact Nat.le_trans (Nat.le_of_eq hnext) (Nat.le_add_right _ _)

/-- No table has a row before anything happens. -/
theorem History.short {es : List Event} (h : History es s) : s.database.Short := by
  cases h with
  | opened hopen =>
    obtain ⟨policy, -, rfl⟩ := Database.of_openDirectory_empty hopen
    intro id t ht
    simp [Database.fresh] at ht
  | snoc _ _ ha => exact ha.short

/-- **Every state that a database comes to is steady,** if there are fewer events than numbers. -/
theorem History.steadyAfter {es : List Event} (h : History es s) (hn : es.length < firstTransaction) :
    s.SteadyAfter es.length := by
  induction h with
  | opened hopen => exact steadyAfter_open hopen
  | @snoc es s s' e hhistory hm ha ih =>
    rw [List.length_append, List.length_singleton] at hn ⊢
    exact (ih (Nat.lt_of_succ_lt hn)).happens hn hm hhistory.short ha

/-! ## Playing a history -/

/-- Whether a system is able to go on. -/
def isAble (s : System) : Bool :=
  s.database.catalog.tables.all (fun t => t.columns.all (fun c =>
      (List.range c.rows).all fun row => (c.under s.database.disk.source row).toOption.isSome) &&
    decide (RowVersions.stampBytes * t.rows ≤ Bytes.longest)) &&
  s.database.disk.contents.all (fun b => decide (b.length ≤ Bytes.longest))

/-- What an event takes a system to. -/
def next? (s : System) : Event → Option System
  | .act a =>
    match s.step a with
    | some (.lost _, _) | none => none
    | some (_, s') => some s'
  | .checkpoint => some s.checkpoint
  | .reopen settings =>
    match Database.openDirectory s.database.disk settings with
    | (.ok db, _) => some ⟨db, []⟩
    | (.error _, _) => none

/-- Lets something happen to a system, if it leaves one that is able to go on. -/
def happen (s : System) (e : Event) : Option System := (s.next? e).filter isAble

/-- An event whose action is one that the types of the program allow. -/
def Event.Typed : Event → Prop
  | .act a => a.Typed
  | _ => True

theorem able_of_isAble (h : s.isAble = true) : s.Able := by
  rw [isAble, Bool.and_eq_true, Array.all_eq_true'] at h
  obtain ⟨htables, hfiles⟩ := h
  have htable : ∀ (id : Nat) (t : Table), s.database.catalog.tables[id]? = some t →
      (∀ c ∈ t.columns, ∀ row < c.rows,
        (c.under s.database.disk.source row).toOption.isSome = true) ∧
      RowVersions.stampBytes * t.rows ≤ Bytes.longest := by
    intro id t ht
    have := htables t (Array.mem_of_getElem? ht)
    rw [Bool.and_eq_true, List.all_eq_true, decide_eq_true_iff] at this
    exact ⟨fun c hc row hrow => List.all_eq_true.mp (this.1 c hc) row (List.mem_range.mpr hrow),
      this.2⟩
  refine ⟨fun id t ht c hc row hrow => ?_, fun id t ht => (htable id t ht).2, fun file => ?_⟩
  · obtain ⟨x, hx⟩ := Option.isSome_iff_exists.mp ((htable id t ht).1 c hc row hrow)
    exact ⟨x, eq_ok_of_toOption hx⟩
  · exact Disk.short_of_all hfiles file

theorem happens_of_next? {e : Event} (ht : e.Typed) (h : s.next? e = some s') : Happens s e s' := by
  cases e with
  | act a =>
    rw [next?] at h
    split at h
    · cases h
    · cases h
    · rename_i o s₁ hlost hstep
      obtain rfl := Option.some.inj h
      exact .act ht hstep hlost
  | checkpoint =>
    obtain rfl := Option.some.inj h
    exact .checkpoint s
  | reopen settings =>
    rw [next?] at h
    split at h
    · rename_i db d hopen
      obtain rfl := Option.some.inj h
      exact .reopen hopen
    · cases h

/-- **Events that are played** are a history. -/
theorem History.play {es more : List Event} (h : History es s) (ht : ∀ e ∈ more, e.Typed)
    (hp : more.foldlM happen s = some s') : History (es ++ more) s' := by
  induction more generalizing es s with
  | nil =>
    obtain rfl := Option.some.inj hp
    rwa [List.append_nil]
  | cons e rest ih =>
    rw [List.foldlM_cons] at hp
    obtain ⟨s₁, hs, hp⟩ := Option.bind_eq_some_iff.mp hp
    obtain ⟨hnext, hable⟩ := Option.filter_eq_some_iff.mp hs
    have hhappens := happens_of_next? (ht e List.mem_cons_self) hnext
    have := ih (h.snoc hhappens (able_of_isAble hable)) (fun e he => ht e (List.mem_cons_of_mem _ he)) hp
    rwa [List.append_assoc] at this

end System

/-! ## Records of writes -/

/-- The rows of a column of a table to which a change has written, once for each time. -/
def UndoRecord.cells (table : TableId) (column : Nat) : UndoRecord → List Nat
  | .update t i rows _ => if t = table ∧ i = column then rows else []
  | _ => []

/-- How often a transaction has written to a column of a row of a table. -/
def Transaction.writes (x : Transaction) (table : TableId) (column row : Nat) : Nat :=
  (x.undo.flatMap (·.cells table column)).count row

theorem length_valuesFor_zip (row : Nat) {rows : List Nat} {values : List Scalar}
    (h : rows.length = values.length) :
    (valuesFor row (rows.zip values)).length = rows.count row := by
  rw [valuesFor, List.length_map, ← List.countP_eq_length_filter, List.count_eq_countP]
  conv_rhs => rw [← List.map_fst_zip (Nat.le_of_eq h), List.countP_map]
  refine List.countP_congr fun p _ => ?_
  simp

/-- **There is one before-image for each write** to a committed row. -/
theorem Transaction.length_images {x : Transaction} {types? : TableId → Option (List ColumnType)}
    (h : x.Recorded types?) (table : TableId) (column : Nat) {row : Nat}
    (hrow : isLocalRow row = false) : (x.images table column row).length = x.writes table column row := by
  have hone : ∀ change ∈ x.undo,
      (valuesFor row (change.imagePairs table column)).length = (change.cells table column).count row := by
    intro change hm
    obtain ⟨front, hafter⟩ := h.undoable.mem hm
    cases change with
    | insert t start count => rfl
    | delete t rows => rfl
    | update t i rows before =>
      rw [UndoRecord.imagePairs, UndoRecord.cells]
      split
      · have hown : valuesFor row ((rows.zip before).filter fun p => !isLocalRow p.1) =
            valuesFor row (rows.zip before) :=
          @Session.valuesFor_filter (fun r => !isLocalRow r) row (by simp [hrow]) _
        rw [hown]
        exact length_valuesFor_zip row hafter.1
      · rfl
  rw [images, writes]
  generalize x.undo = undo at hone
  induction undo with
  | nil => rfl
  | cons change rest ih =>
    rw [List.flatMap_cons, valuesFor_append, List.length_append, List.flatMap_cons, List.count_append,
      hone change List.mem_cons_self, ih fun c hc => hone c (List.mem_cons_of_mem _ hc)]

namespace System

variable {s : System}

/-! ## Who owns what is not committed -/

/-- The versions of a column of a row: the times of commits in order, and behind them what one active
transaction has written, a version for each of its records of the cell. -/
def OwnsChain (s : System) (table : TableId) (column row : Nat) (chain : List Version) : Prop :=
  ∃ settled own, chain = settled ++ own ∧ Ordered settled ∧
    (∀ v ∈ settled, v.stamp ≤ s.database.lastCommit) ∧
    ((own = [] ∧ ∀ x ∈ activeOf s.transactions, x.writes table column row = 0) ∨
      ∃ x ∈ activeOf s.transactions, (∀ v ∈ own, v.stamp = x.id) ∧
        own.length = x.writes table column row ∧
        ∀ y ∈ activeOf s.transactions, y.id ≠ x.id → y.writes table column row = 0)

/-- **Every uncommitted mark belongs to an active transaction** that has a record of it. -/
structure Owned (s : System) : Prop where
  active : ∀ id, id ∈ s.database.active ↔ ∃ x ∈ activeOf s.transactions, x.id = id
  inserted : ∀ (id : Nat) (t : Table) (r : Nat) (st : RowStamps),
    s.database.catalog.tables[id]? = some t → t.stamps? r = some st →
      st.inserted ≤ s.database.lastCommit
  deleted : ∀ (id : Nat) (t : Table) (r : Nat) (st : RowStamps),
    s.database.catalog.tables[id]? = some t → t.stamps? r = some st →
      st.deleted = neverDeleted ∨ st.deleted ≤ s.database.lastCommit ∨
        ∃ x ∈ activeOf s.transactions, st.deleted = x.id ∧
          ∃ rows, UndoRecord.delete id rows ∈ x.undo ∧ r ∈ rows
  chains : ∀ (id : Nat) (t : Table) (i r : Nat), s.database.catalog.tables[id]? = some t →
    r < t.rows → s.OwnsChain id i r (t.chain i r)

theorem isLocalRow_of_short {db : Database} (h : db.Short) {id : Nat} {t : Table}
    (ht : db.catalog.tables[id]? = some t) {r : Nat} (hr : r < t.rows) : isLocalRow r = false := by
  have hshort := h id t ht
  have hlongest : Bytes.longest < RowVersions.stampBytes * firstLocalRow := by decide
  have hlt : t.rows < firstLocalRow :=
    Nat.lt_of_mul_lt_mul_left (Nat.lt_of_le_of_lt hshort hlongest)
  exact decide_eq_false (Nat.not_le_of_lt (Nat.lt_trans hr hlt))

/-- **A chain of a steady system** is settled up to what one transaction has written. -/
theorem Steady.ownsChain (h : s.Steady) {id : Nat} {t : Table}
    (ht : s.database.catalog.tables[id]? = some t) (i : Nat) {r : Nat} (hr : isLocalRow r = false) :
    s.OwnsChain id i r (t.chain i r) := by
  have hlength := fun x (hx : x ∈ activeOf s.transactions) =>
    Transaction.length_images (h.sound.database.recorded x hx) id i hr
  have hordered := (h.guarded id t ht).ordered i r
  rcases (h.sound.database.owned id t ht).cells i r with ⟨hle, hnone⟩ | ⟨x, settled, values, hx⟩
  · refine ⟨t.chain i r, [], (List.append_nil _).symm, ?_, hle, .inl ⟨rfl, fun x hx => ?_⟩⟩
    · rwa [committedUpTo_of_le hle] at hordered
    · rw [← hlength x hx, hnone x hx, List.length_nil]
  · refine ⟨settled, versionsOf x.id values, hx.chain_eq, ?_, hx.settled_le,
      .inr ⟨x, hx.mem, fun v hv => ?_, ?_, fun y hy hne => ?_⟩⟩
    · have hlast := Nat.lt_of_lt_of_le h.sound.database.last_lt (h.sound.database.ids x hx.mem).1
      rwa [hx.committedUpTo_eq hlast] at hordered
    · obtain ⟨value, -, rfl⟩ := List.mem_map.mp hv
      rfl
    · obtain ⟨below, -, himages⟩ := hx.images_eq
      rw [← hlength x hx.mem, himages, length_dropLast_cons, versionsOf, List.length_map]
    · rw [← hlength y hy, hx.others y hy hne, List.length_nil]

/-- **Everything in a steady system has its owner.** -/
theorem Steady.owned (h : s.Steady) (hshort : s.database.Short) : s.Owned where
  active id := by
    rw [h.sound.database.listed, List.mem_map]
  inserted id t r st ht hst := by
    have hrow := (h.sound.database.owned id t ht).rows r
    rw [hst] at hrow
    exact hrow.1
  deleted id t r st ht hst := by
    have hrow := (h.sound.database.owned id t ht).rows r
    rw [hst] at hrow
    rcases hrow.2 with ⟨hle | hnever, -⟩ | ⟨x, hx, hdeleted, hin, -⟩
    · exact .inr (.inl hle)
    · exact .inl hnever
    · obtain ⟨rows, hm, hr, -⟩ := Transaction.hasDeleted_iff.mpr hin
      exact .inr (.inr ⟨x, hx, hdeleted, rows, hm, hr⟩)
  chains id t i r ht hr := h.ownsChain ht i (isLocalRow_of_short hshort ht hr)

/-- **A steady system without active transactions** has nothing that is not committed. -/
theorem Steady.quiet (h : s.Steady) (hnone : s.database.active = []) {id : Nat} {t : Table}
    (ht : s.database.catalog.tables[id]? = some t) :
    (∀ r st, t.stamps? r = some st →
      st.deleted = neverDeleted ∨ st.deleted ≤ s.database.lastCommit) ∧
    ∀ i r, ∀ v ∈ t.chain i r, v.stamp ≤ s.database.lastCommit := by
  have hnobody : ∀ x, x ∉ activeOf s.transactions := by
    intro x hx
    have hm := (h.sound.database.listed x.id).mpr (List.mem_map_of_mem hx)
    rw [hnone] at hm
    exact absurd hm List.not_mem_nil
  have howned := h.sound.database.owned id t ht
  refine ⟨fun r st hst => ?_, fun i r v hv => ?_⟩
  · have hrow := howned.rows r
    rw [hst] at hrow
    rcases hrow.2 with ⟨hle | hnever, -⟩ | ⟨x, hx, -⟩
    · exact .inr hle
    · exact .inl hnever
    · exact absurd hx (hnobody x)
  · rcases howned.cells i r with ⟨hle, -⟩ | ⟨x, settled, values, hx⟩
    · exact hle v hv
    · exact absurd hx.mem (hnobody x)

end System
end ColumnStore
