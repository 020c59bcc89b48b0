/-
# What the log tells

A ledger is what the groups in the log say of the tables, read without stamps, versions and files: the
rows of each table by number, with nothing in place of a row that was deleted.  A catalog to which a
group is replayed is what the ledger tells when the group is entered (`Ledger.Tells.applyAll`).
-/

import ColumnStore.Proofs.Database.Settled

namespace ColumnStore

/-! ## Entries -/

namespace LogEntry

/-- The value that an update writes to a row, the last one if it names the row several times. -/
def written? (rows : List Nat) (values : List Scalar) (r : Nat) : Option Scalar :=
  (valuesFor r (rows.zip values)).getLast?

/-- What an entry makes of the row with a number. -/
def makes (r : Nat) (x : Option Row) : LogEntry → Option Row
  | .delete _ rows => if r ∈ rows then none else x
  | .update _ i rows values => x.map fun row => row.modify i fun y => (written? rows values r).getD y
  | _ => x

/-- The rows that an entry adds. -/
def added : LogEntry → List Row
  | .insert _ rows => rows
  | _ => []

end LogEntry

/-! ## Ledgers -/

/-- A table in a ledger. -/
structure LedgerTable where
  name : String
  definitions : List ColumnDefinition
  rows : List (Option Row) := []

/-- What an entry makes of its table. -/
def LedgerTable.enter (t : LedgerTable) (e : LogEntry) : LedgerTable :=
  { t with rows := t.rows.mapIdx (fun r x => e.makes r x) ++ e.added.map some }

/-- The tables that are not dropped. -/
abbrev Ledger := List LedgerTable

namespace Ledger

/-- What an entry makes of the tables. -/
def enter (l : Ledger) (e : LogEntry) : Ledger :=
  match e with
  | .createTable name definitions => l ++ [{ name, definitions }]
  | .dropTable name => l.filter (·.name ≠ name)
  | _ => l.map fun t => if e.target? = some t.name then t.enter e else t

/-- What a group makes of the tables. -/
def enterGroup (l : Ledger) : LogGroup → Ledger
  | .changes es _ => es.foldl enter l
  | .marker _ => l

/-- The tables with new numbers for their rows, those that are deleted apart. -/
def renumber (l : Ledger) : Ledger := l.map fun t => { t with rows := t.rows.filter (·.isSome) }

end Ledger

/-! ## Rows -/

/-- Rows with the same values. -/
def Row.Same (x y : Row) : Prop := List.Forall₂ (fun a b => Scalar.same a b = true) x y

namespace Table

/-- What everybody sees of a row: nothing, or values that are the same as those of a given row. -/
structure Shows (t : Table) (source : Source) (r : Nat) (x : Option Row) : Prop where
  visible : (t.stamps? r).any (·.isVisible .committed) = x.isSome
  values : ∀ row, x = some row → row.length = t.definitions.length ∧
    ∀ i y, row[i]? = some y → ∃ v, t.value source i r .committed = .ok v ∧ v.same y = true

variable {source : Source} {t t' : Table} {r : Nat} {x : Option Row} {time last : Stamp}
  {safe : StoredValues → Prop}

/-- What is shown depends on what is seen and read of the row. -/
theorem Shows.congr (h : t.Shows source r x) (hd : t'.definitions = t.definitions)
    (hs : t'.stamps? r = t.stamps? r)
    (hv : ∀ i, t'.value source i r .committed = t.value source i r .committed) :
    t'.Shows source r x where
  visible := hs ▸ h.visible
  values row hrow := by
    obtain ⟨hlen, hvalues⟩ := h.values row hrow
    refine ⟨hd ▸ hlen, fun i y hy => ?_⟩
    rw [hv]
    exact hvalues i y hy

/-- Everybody sees what is committed. -/
theorem sees_committed (h : time < firstTransaction) : Snapshot.committed.sees time = true := by
  rw [Snapshot.sees, Bool.or_eq_true, decide_eq_true_iff]
  exact Or.inl (Nat.le_sub_one_of_lt h)

theorem not_sees_never : Snapshot.committed.sees neverDeleted = false := by decide

/-- **A row that is added** is shown. -/
theorem Adds.shows_new {rows : List Row} (h : Adds t t' time rows) (hs : t.Sound)
    (hfit : ∀ row ∈ rows, FitsTypes row t.types) (ht : time < firstTransaction) {k : Nat}
    {row : Row} (hk : rows[k]? = some row) : t'.Shows source (t.rows + k) (some row) := by
  have hlt : k < rows.length := (List.getElem?_eq_some_iff.mp hk).1
  refine ⟨?_, fun row' hrow => ?_⟩
  · rw [h.stamps_new (Nat.le_add_right _ _), if_pos (Nat.add_lt_add_left hlt _)]
    simp [RowStamps.isVisible, sees_committed ht, not_sees_never]
  obtain rfl := Option.some.inj hrow
  have hlen : row.length = t.definitions.length := by
    rw [(hfit row (List.mem_of_getElem? hk)).length_eq, types, List.length_map]
  refine ⟨h.definitions_eq ▸ hlen, fun i y hy => ⟨y, ?_, Scalar.same_self y⟩⟩
  have hi : i < t.columns.length := by
    rw [length_columns hs, ← hlen]
    exact (List.getElem?_eq_some_iff.mp hy).1
  have hcolumn : (columnOf rows i)[k]? = some y := by
    rw [columnOf, List.getElem?_map, hk, Option.map_some, List.getD_eq_getElem?_getD, hy,
      Option.getD_some]
  rw [value, h.under_new source i k y hi hcolumn, h.chain_eq,
    chain_of_le hs (Nat.le_add_right _ _)]
  rfl

/-- What an update writes is the value that everybody reads. -/
theorem Writes.value_eq {i : Nat} {rows : List Nat} {values : List Scalar}
    (h : Writes t t' i time (rows.zip values)) (ht : time < firstTransaction) (j r : Nat) :
    t'.value source j r .committed =
      match (if j = i then LogEntry.written? rows values r else none) with
      | some y => .ok y
      | none => t.value source j r .committed := by
  rw [value, h.keeps.under_eq, h.chain_eq]
  by_cases hj : j = i
  · rw [if_pos hj, if_pos hj]
    by_cases hnil : valuesFor r (rows.zip values) = []
    · rw [LogEntry.written?, hnil]
      exact congrArg (readOver _ · _) (List.append_nil _)
    · rw [readOver, seen?_append_versionsOf _ hnil (sees_committed ht), LogEntry.written?,
        List.getLast?_eq_getLast_of_ne_nil hnil]
  · rw [if_neg hj, if_neg hj]
    rfl

end Table

/-! ## Tables -/

/-- A table that is as the ledger tells. -/
structure LedgerTable.Tells (l : LedgerTable) (source : Source) (t : Table) : Prop where
  definitions_eq : t.definitions = l.definitions
  rows_eq : t.rows = l.rows.length
  shows : ∀ r x, l.rows[r]? = some x → t.Shows source r x

namespace LedgerTable

variable {l : LedgerTable} {source : Source} {t t' : Table} {time : Stamp}

theorem getElem?_enter (l : LedgerTable) (e : LogEntry) (r : Nat) :
    (l.enter e).rows[r]? = if r < l.rows.length then (l.rows[r]?).map fun x => e.makes r x
      else (e.added[r - l.rows.length]?).map some := by
  rw [enter, List.getElem?_append, List.length_mapIdx]
  split
  · rw [List.getElem?_mapIdx]
  · rw [List.getElem?_map]

/-- Entries that add nothing are told row by row. -/
theorem Tells.of_makes (h : l.Tells source t) {e : LogEntry} (hadded : e.added = [])
    (hdefinitions : t'.definitions = t.definitions) (hrows : t'.rows = t.rows)
    (hshows : ∀ r x, t.Shows source r x → l.rows[r]? = some x → t'.Shows source r (e.makes r x)) :
    (l.enter e).Tells source t' where
  definitions_eq := hdefinitions.trans h.definitions_eq
  rows_eq := by
    rw [hrows, h.rows_eq, enter, hadded, List.map_nil, List.append_nil, List.length_mapIdx]
  shows r x hx := by
    rw [getElem?_enter, hadded, List.getElem?_nil, Option.map_none] at hx
    split at hx
    · obtain ⟨y, hy, rfl⟩ := Option.map_eq_some_iff.mp hx
      exact hshows r y (h.shows r y hy) hy
    · cases hx

/-- **An entry that is replayed is told by the ledger** in which it is entered. -/
theorem Tells.enact (h : l.Tells source t) (hs : t.Sound) (ht : time < firstTransaction)
    {e : LogEntry} (hok : t.enact time e = (.ok (), t')) : (l.enter e).Tells source t' := by
  cases e with
  | insert name rows =>
    rw [Table.enact] at hok
    rcases ha : t.appendRows rows time with ⟨e | range, u⟩
    · rw [ha] at hok
      cases (Prod.mk.inj hok).1
    · rw [ha] at hok
      obtain rfl := (Prod.mk.inj hok).2
      obtain ⟨hadds, hfit, -⟩ := Table.of_appendRows hs ha
      refine ⟨hadds.definitions_eq.trans h.definitions_eq, ?_, fun r x hx => ?_⟩
      · rw [hadds.rows_eq, h.rows_eq, enter, List.length_append, List.length_mapIdx, List.length_map]
        rfl
      · rw [getElem?_enter] at hx
        split at hx
        · rename_i hr
          obtain ⟨y, hy, rfl⟩ := Option.map_eq_some_iff.mp hx
          rw [← h.rows_eq] at hr
          refine (h.shows r y hy).congr hadds.definitions_eq (hadds.stamps_old hr) fun i => ?_
          rw [Table.value, hadds.under_old source i r hr, hadds.chain_eq]
          rfl
        · rename_i hr
          obtain ⟨row, hrow, rfl⟩ := Option.map_eq_some_iff.mp hx
          have hshown := @Table.Adds.shows_new source _ _ _ _ hadds hs hfit ht _ _ hrow
          rwa [h.rows_eq, Nat.add_sub_cancel' (Nat.le_of_not_lt hr)] at hshown
  | delete name rows =>
    have hr := Table.of_deleteCommitted hs hok
    refine h.of_makes rfl hr.keeps.definitions_eq hr.keeps.rows_eq fun r x hx hl => ?_
    have hvalue : ∀ i, t'.value source i r .committed = t.value source i r .committed := by
      intro i
      rw [Table.value, hr.keeps.under_eq, hr.chain_eq]
      rfl
    have hstamps := hr.stamps_eq r
    rw [LogEntry.makes]
    by_cases hm : r ∈ rows
    · rw [if_pos hm] at hstamps ⊢
      refine ⟨?_, fun row hrow => by cases hrow⟩
      rw [hstamps, Option.any_map]
      cases t.stamps? r with
      | none => rfl
      | some st => simp [RowStamps.isVisible, Table.sees_committed ht]
    · rw [if_neg hm] at hstamps ⊢
      exact hx.congr hr.keeps.definitions_eq hstamps hvalue
  | update name i rows values =>
    obtain ⟨c, hc, -, hw⟩ := Table.of_updateCommitted hs hok
    refine h.of_makes rfl hw.keeps.definitions_eq hw.keeps.rows_eq fun r x hx hl => ⟨?_, ?_⟩
    · rw [hw.stamps_eq, hx.visible, LogEntry.makes, Option.isSome_map]
    · intro row hrow
      obtain ⟨row', rfl, rfl⟩ := Option.map_eq_some_iff.mp hrow
      obtain ⟨hlen, hvalues⟩ := hx.values row' rfl
      rw [List.length_modify]
      refine ⟨hw.keeps.definitions_eq ▸ hlen, fun j y hy => ?_⟩
      rw [hw.value_eq ht]
      rw [List.getElem?_modify] at hy
      obtain ⟨z, hz, rfl⟩ := Option.map_eq_some_iff.mp hy
      obtain ⟨v, hv, hsame⟩ := hvalues j z hz
      by_cases hj : i = j
      · subst hj
        simp only [if_true]
        cases LogEntry.written? rows values r with
        | none => exact ⟨v, hv, hsame⟩
        | some y => exact ⟨y, rfl, Scalar.same_self y⟩
      · rw [if_neg (Ne.symm hj), if_neg hj]
        exact ⟨v, hv, hsame⟩
  | createTable | dropTable | checkpoint | commit =>
    obtain rfl := (Prod.mk.inj hok).2
    exact h.of_makes rfl rfl rfl fun r x hx _ => hx

/-- A new table has no rows. -/
theorem tells_new {policy : SegmentPolicy} (hp : 0 < policy.capacity) {name : String}
    {definitions : List ColumnDefinition} (hok : Table.new name definitions policy = .ok t) :
    LedgerTable.Tells { name, definitions } source t := by
  obtain ⟨-, -, hdefs, -, -, hrows, -⟩ := Table.new_ok hp hok
  exact ⟨hdefs, hrows, fun _ _ hx => by cases hx⟩

end LedgerTable

/-! ## Catalogs -/

namespace Ledger

/-- A catalog with the tables that the ledger tells of, and no others. -/
structure Tells (l : Ledger) (source : Source) (c : Catalog) : Prop where
  names : (l.map (·.name)).Perm (c.names.map (·.1))
  tables : ∀ x ∈ l, ∃ id t, (x.name, id) ∈ c.names ∧ c.tables[id]? = some t ∧ x.Tells source t

variable {l : Ledger} {source : Source} {c c' : Catalog} {policy : SegmentPolicy} {time last : Stamp}
  {safe : StoredValues → Prop}

theorem tells_nil (source : Source) : Tells [] source {} where
  names := .nil
  tables _ hx := absurd hx List.not_mem_nil

/-- An entry that names a table changes that one. -/
theorem enter_of_target {e : LogEntry} {name : String} (h : e.target? = some name) (l : Ledger) :
    l.enter e = l.map fun t => if name = t.name then t.enter e else t := by
  cases e <;> first
    | cases h
      simp only [enter, LogEntry.target?, Option.some.injEq]
    | cases h

/-- **A table that is changed** is told anew. -/
theorem Tells.setTable (h : l.Tells source c) (hc : c.Sound) {e : LogEntry} {name : String}
    (he : e.target? = some name) {id : TableId} {t t' : Table} (hm : (name, id) ∈ c.names)
    (ht : c.tables[id]? = some t)
    (ht' : ∀ x : LedgerTable, x.Tells source t → (x.enter e).Tells source t') :
    (l.enter e).Tells source (c.setTable id t') := by
  rw [enter_of_target he]
  refine ⟨?_, fun x hx => ?_⟩
  · rw [List.map_map, show (fun t : LedgerTable => t.name) ∘ (fun t : LedgerTable =>
      if name = t.name then t.enter e else t) = fun t => t.name by
        funext t
        dsimp only [Function.comp]
        split <;> rfl]
    exact h.names
  · obtain ⟨y, hy, rfl⟩ := List.mem_map.mp hx
    obtain ⟨j, u, hj, hu, hyu⟩ := h.tables y hy
    obtain ⟨v, hv, hname, -⟩ := hc.named name id hm
    obtain ⟨w, hw, hname', -⟩ := hc.named y.name j hj
    by_cases heq : name = y.name
    · obtain rfl : id = j := by
        have hall := List.inj_on_of_nodup_map hc.names_nodup hm hj heq
        exact (Prod.mk.inj hall).2
      obtain rfl := Option.some.inj (ht.symm.trans hu)
      rw [if_pos heq]
      exact ⟨id, t', hj, by rw [Catalog.tables_setTable ht, if_pos rfl], ht' y hyu⟩
    · rw [if_neg heq]
      refine ⟨j, u, hj, ?_, hyu⟩
      rw [Catalog.tables_setTable ht, if_neg, hu]
      rintro rfl
      obtain rfl := Option.some.inj (hv.symm.trans hw)
      exact heq (hname.symm.trans hname')

/-- **An entry that is replayed** is told by the ledger in which it is entered. -/
theorem Tells.apply (h : l.Tells source c) (hc : c.Sound) (hp : 0 < policy.capacity)
    (ht : time < firstTransaction) {e : LogEntry}
    (hok : Replay.apply policy time c e = (.ok (), c')) : (l.enter e).Tells source c' := by
  have htable : ∀ name, e.target? = some name → (l.enter e).Tells source c' := by
    intro name htarget
    obtain ⟨id, t, hm, htab, hen⟩ := Replay.of_apply hc htarget hok
    obtain ⟨t', hen, rfl⟩ := hen
    exact h.setTable hc htarget hm htab fun x hx => hx.enact (hc.tables id t htab).1 ht hen
  cases e with
  | createTable name definitions =>
    obtain ⟨t, hnew, hx⟩ := bind_eq_ok.mp (Attempt.ofExcept_eq_ok.mp hok)
    obtain ⟨⟨id, c₁⟩, hinsert, hx⟩ := bind_eq_ok.mp hx
    obtain rfl := (Prod.mk.inj (Except.ok.inj hx)).2
    obtain ⟨-, hname, -⟩ := Table.new_ok hp hnew
    obtain ⟨-, rfl, rfl⟩ := Catalog.insert_ok hinsert
    have hperm := Catalog.insertName_perm t.name c.tables.size c.names
    refine ⟨?_, fun x hx => ?_⟩
    · refine List.Perm.trans ?_ (hperm.map (·.1)).symm
      rw [enter, List.map_append, List.map_cons, hname]
      exact List.perm_append_singleton _ _ |>.trans (h.names.cons name)
    · rcases List.mem_append.mp hx with hx | hx
      · obtain ⟨j, u, hj, hu, hxu⟩ := h.tables x hx
        refine ⟨j, u, hperm.mem_iff.mpr (List.mem_cons_of_mem _ hj), ?_, hxu⟩
        rw [Catalog.getElem?_push, if_neg, hu]
        exact Nat.ne_of_lt (Array.getElem?_eq_some_iff.mp hu).1
      · rw [List.mem_singleton.mp hx]
        refine ⟨c.tables.size, t, hperm.mem_iff.mpr (hname ▸ List.mem_cons_self), ?_,
          LedgerTable.tells_new hp hnew⟩
        rw [Catalog.getElem?_push, if_pos rfl]
  | dropTable name =>
    obtain ⟨⟨id, c₁⟩, hremove, hx⟩ := bind_eq_ok.mp (Attempt.ofExcept_eq_ok.mp hok)
    obtain rfl := (Prod.mk.inj (Except.ok.inj hx)).2
    obtain ⟨hget, rfl⟩ := Catalog.remove_ok hremove
    have hm := Catalog.mem_of_get hget
    obtain ⟨t, htab, hname, -⟩ := hc.named name id hm
    refine ⟨?_, fun x hx => ?_⟩
    · have hnames := h.names.filter (· ≠ name)
      rw [List.filter_map, List.filter_map] at hnames
      exact hnames
    · obtain ⟨hx, hne⟩ := List.mem_filter.mp hx
      obtain ⟨j, u, hj, hu, hxu⟩ := h.tables x hx
      refine ⟨j, u, List.mem_filter.mpr ⟨hj, hne⟩, ?_, hxu⟩
      dsimp only
      rw [Catalog.table_of_some htab, Catalog.tables_setTable htab, if_neg, hu]
      rintro rfl
      obtain ⟨v, hv, hname', -⟩ := hc.named x.name j hj
      obtain rfl := Option.some.inj (htab.symm.trans hv)
      exact of_decide_eq_true hne (hname'.symm.trans hname)
  | insert table rows => exact htable table rfl
  | delete table rows => exact htable table rfl
  | update table column rows values => exact htable table rfl
  | checkpoint n | commit n =>
    obtain rfl := (Prod.mk.inj hok).2
    simpa only [enter, LogEntry.target?, reduceCtorEq, if_false, List.map_id'] using h

/-- **A group that is replayed** is told by the ledger in which it is entered. -/
theorem Tells.applyGroup {es : List LogEntry} (h : l.Tells source c)
    (hc : c.Settled policy safe time) (hp : 0 < policy.capacity) (ht : time < firstTransaction)
    (hn : ∀ e ∈ es, e.Narrow) (hok : Replay.applyGroup policy time c es = (.ok (), c')) :
    (es.foldl enter l).Tells source c' := by
  induction es generalizing l c with
  | nil =>
    obtain rfl := (Prod.mk.inj hok).2
    exact h
  | cons e rest ih =>
    obtain ⟨⟨⟩, c₁, hone, hok⟩ := Attempt.andThen_eq_ok.mp hok
    have hsettled := Replay.settled_apply hp hc (Nat.le_refl _) (hn e List.mem_cons_self) hone
    exact ih (h.apply hc.sound hp ht hone) hsettled (fun e he => hn e (List.mem_cons_of_mem _ he)) hok

/-- **Groups that are replayed** are told by the ledger in which they are entered. -/
theorem Tells.applyAll {groups : List LogGroup} (h : l.Tells source c)
    (hc : c.Settled policy safe last) (hp : 0 < policy.capacity)
    (hn : ∀ g ∈ groups, ∀ e ∈ g.entries, e.Narrow)
    (hordered : (last :: LogGroup.times groups).Pairwise (· ≤ ·))
    (ht : ∀ t ∈ LogGroup.times groups, t < firstTransaction)
    (hok : Replay.applyAll? policy c groups = some c') :
    (groups.foldl enterGroup l).Tells source c' := by
  induction groups generalizing l c last with
  | nil =>
    obtain rfl := Option.some.inj hok
    exact h
  | cons g rest ih =>
    obtain ⟨c₁, hone, hmore⟩ := Option.bind_eq_some_iff.mp hok
    have hrest := fun g' hg' => hn g' (List.mem_cons_of_mem _ hg')
    cases g with
    | marker n =>
      obtain rfl := Option.some.inj hone
      exact ih h hc hrest hordered ht hmore
    | changes es time =>
      obtain ⟨hbehind, hordered'⟩ := List.pairwise_cons.mp hordered
      have htime := hc.mono (hbehind time List.mem_cons_self)
      have hnarrow : ∀ e ∈ es, e.Narrow := fun e he =>
        hn _ List.mem_cons_self e (List.mem_append_left _ he)
      rw [Replay.applyOne?] at hone
      split at hone
      · rename_i c₂ hgroup
        obtain rfl := Option.some.inj hone
        refine ih (h.applyGroup htime hp (ht time List.mem_cons_self) hnarrow hgroup)
          (Replay.settled_applyGroup hp (Nat.le_refl _) htime hnarrow hgroup) hrest hordered'
          (fun t hm => ht t (List.mem_cons_of_mem _ hm)) hmore
      · cases hone

end Ledger
end ColumnStore
