/-
# No lost updates

What is committed in a table only grows: versions come behind the old ones, and rows that are deleted
stay so (`System.Moves.chain`, `System.Moves.stamps`).  Whoever writes over a cell has seen all
versions that are committed there by the end.  So of two transactions that did not see each other at
most one commits a change of the same cell, or of a row that the other one deletes, and a committed
update is what later snapshots read until somebody who could see it changes the cell or deletes the
row (`System.no_lost_update`).
-/

import ColumnStore.Proofs.Database.Guarding
import ColumnStore.Proofs.Database.RoundTrip

namespace ColumnStore

/-! ## What a transaction has done to a row -/

namespace Transaction

/-- A transaction that has written to a column of a row of a table. -/
def HasUpdated (x : Transaction) (table : TableId) (column row : Nat) : Prop :=
  ∃ rows before, UndoRecord.update table column rows before ∈ x.undo ∧ row ∈ rows ∧
    isLocalRow row = false

/-- A transaction that has deleted a row of a table. -/
def HasDeleted (x : Transaction) (table : TableId) (row : Nat) : Prop :=
  ∃ rows, UndoRecord.delete table rows ∈ x.undo ∧ row ∈ rows ∧ isLocalRow row = false

theorem hasDeleted_iff {x : Transaction} {table : TableId} {row : Nat} :
    x.HasDeleted table row ↔ row ∈ x.deletedRows table := by
  rw [deletedRows, List.mem_flatMap]
  constructor
  · rintro ⟨rows, hm, hr, hl⟩
    refine ⟨_, hm, ?_⟩
    rw [UndoRecord.deletedRows, if_pos rfl]
    exact List.mem_filter.mpr ⟨hr, by simp [hl]⟩
  · rintro ⟨change, hm, hr⟩
    cases change with
    | delete t rows =>
      rw [UndoRecord.deletedRows] at hr
      split at hr
      · rename_i ht
        subst ht
        obtain ⟨hr, hl⟩ := List.mem_filter.mp hr
        exact ⟨rows, hm, hr, by simpa using hl⟩
      · cases hr
    | insert => cases hr
    | update => cases hr

theorem hasUpdated_of_images {x : Transaction} {table : TableId} {column row : Nat}
    (h : x.images table column row ≠ []) : x.HasUpdated table column row := by
  rw [images, Ne, valuesFor_eq_nil, not_not, List.map_flatMap] at h
  obtain ⟨change, hm, hr⟩ := List.mem_flatMap.mp h
  obtain ⟨p, hp, rfl⟩ := List.mem_map.mp hr
  cases change with
  | update t i rows before =>
    rw [UndoRecord.imagePairs] at hp
    split at hp
    · rename_i ht
      obtain ⟨rfl, rfl⟩ := ht
      obtain ⟨hp, hl⟩ := List.mem_filter.mp hp
      exact ⟨rows, before, hm, (List.of_mem_zip hp).1, by simpa using hl⟩
    · cases hp
  | insert => cases hp
  | delete => cases hp

end Transaction

/-! ## What is committed only grows -/

namespace System

variable {s s' : System} {who : Option Transaction} {id : TableId} {t t' : Table}

theorem Moves.last_le (h : Moves s s' who id t t') :
    s.database.lastCommit ≤ s'.database.lastCommit := by
  cases h with
  | stays hwho h hlast =>
    rcases hlast with hlast | hlast <;> rw [hlast]
    exact Nat.le_succ _
  | touched x hwho hx h hlast => exact Nat.le_of_eq hlast.symm
  | commits x hwho hx h hlast =>
    rw [hlast]
    exact Nat.le_succ _

/-- **What a step commits in a column of a row** comes behind what is committed there. -/
theorem Moves.chain (h : Moves s s' who id t t') (hs : s.Sound) (hr : s.Room)
    (ht : s.database.catalog.tables[id]? = some t)
    (hg : t.Guarded s.database.lastCommit (activeOf s.transactions)) (i r : Nat) :
    (committedUpTo s'.database.lastCommit (t'.chain i r) =
        committedUpTo s.database.lastCommit (t.chain i r) ∧
      ∀ x, who = some x → x.images id i r = []) ∨
      ∃ x values, who = some x ∧ x.HasUpdated id i r ∧ values ≠ [] ∧
        (∀ v ∈ committedUpTo s.database.lastCommit (t.chain i r), v.stamp ≤ x.start) ∧
        t.chain i r = committedUpTo s.database.lastCommit (t.chain i r) ++ versionsOf x.id values ∧
        committedUpTo s'.database.lastCommit (t'.chain i r) =
          committedUpTo s.database.lastCommit (t.chain i r) ++
            versionsOf (s.database.lastCommit + 1) values := by
  have hn := numbered hs.database
  have hcell := (hs.database.owned id t ht).cells i r
  have htime : ∀ y ∈ activeOf s.transactions, s.database.lastCommit + 1 < y.id := fun y hy =>
    Nat.lt_of_lt_of_le hr.commits (hs.database.ids y hy).1
  cases h with
  | stays hwho h hlast =>
    refine Or.inl ⟨?_, fun x hx => by rw [hwho] at hx; cases hx⟩
    rw [h]
    rcases hlast with hlast | hlast <;> rw [hlast]
    · rfl
    · exact hcell.committedUpTo_eq (Nat.le_succ _) htime
  | touched x hwho hx h hlast =>
    refine Or.inl ⟨?_, fun x hx => by rw [hwho] at hx; cases hx⟩
    rw [hlast, h.committedUpTo_eq (hn.ids x hx).1]
  | commits x hwho hx h hlast =>
    rw [hlast, h.chain_eq]
    rcases hn.commit_chain hx hcell (Nat.le_succ _) htime (hg.ordered i r) with
      ⟨hnone, heq⟩ | ⟨values, hvalues, himages, hseen, hchain, heq⟩
    · exact Or.inl ⟨heq, fun z hz => Option.some.inj (hwho.symm.trans hz) ▸ hnone⟩
    · exact Or.inr ⟨x, values, hwho, Transaction.hasUpdated_of_images himages, hvalues, hseen,
        hchain, heq⟩

/-- **What a step does to the stamps of a row:** a deletion that is committed stays, and a new one is
by whoever commits and has seen all that is written in the row. -/
theorem Moves.stamps (h : Moves s s' who id t t') (hs : s.Sound) (hr : s.Room)
    (ht : s.database.catalog.tables[id]? = some t)
    (hg : t.Guarded s.database.lastCommit (activeOf s.transactions)) {r : Nat} {st : RowStamps}
    (hst : t.stamps? r = some st) :
    ∃ st', t'.stamps? r = some st' ∧ st'.inserted = st.inserted ∧
      (st.deleted ≤ s.database.lastCommit → st'.deleted = st.deleted) ∧
      (st'.deleted ≤ s'.database.lastCommit → st.deleted ≤ s.database.lastCommit ∨
        ∃ x, who = some x ∧ x.HasDeleted id r ∧ st'.deleted = s.database.lastCommit + 1 ∧
          ∀ i, ∀ v ∈ t.chain i r, x.snapshot.sees v.stamp = true) := by
  have hn := numbered hs.database
  have hrow := (hs.database.owned id t ht).rows r
  rw [hst] at hrow
  have htime : ∀ y ∈ activeOf s.transactions, s.database.lastCommit + 1 < y.id := fun y hy =>
    Nat.lt_of_lt_of_le hr.commits (hs.database.ids y hy).1
  have hnever : s.database.lastCommit + 1 < neverDeleted := Nat.lt_trans hr.commits (by decide)
  have hsame : st.deleted ≤ s.database.lastCommit + 1 → st.deleted ≤ s.database.lastCommit :=
    hrow.deleted_le htime hnever
  cases h with
  | stays hwho h hlast =>
    refine ⟨st, ?_, rfl, fun _ => rfl, fun hd => Or.inl ?_⟩
    · rw [h]
      exact hst
    · rcases hlast with hlast | hlast <;> rw [hlast] at hd
      · exact hd
      · exact hsame hd
  | touched x hwho hx h hlast =>
    obtain ⟨st', hst', hins, hkeep, hold⟩ :=
      h.stamps (hn.ids x hx).1 (Nat.lt_of_succ_lt hnever) hst
    exact ⟨st', hst', hins, hkeep, fun hd => Or.inl (hold (hlast ▸ hd))⟩
  | commits x hwho hx h hlast =>
    obtain ⟨hid, -, -⟩ := hn.ids x hx
    rw [h.stamps_old r (Table.of_stamps? hst), hst, Option.map_some, hlast]
    refine ⟨_, rfl, RowStamps.inserted_commitDelete .., fun hd => ?_, fun hd => ?_⟩
    · rw [RowStamps.commitDelete, if_neg (Nat.ne_of_lt (Nat.lt_of_le_of_lt hd hid))]
    · rw [RowStamps.commitDelete] at hd ⊢
      split
      · rename_i hdx
        exact Or.inr ⟨x, hwho, Transaction.hasDeleted_iff.mpr ((hn.deleted_eq_iff hx hrow).mp hdx),
          rfl, hg.held r st hst x hx hdx⟩
      · rename_i hdx
        rw [if_neg hdx] at hd
        exact Or.inl (hsame hd)

/-! ## Transactions in a run -/

/-- A transaction that commits at a time in a run. -/
def CommittedIn (start : System) (trace : List (Action × Outcome)) (x : Transaction)
    (time : Stamp) : Prop :=
  ∃ before k after s, trace = before ++ (Action.commit k, Outcome.committed time) :: after ∧
    Run start before s ∧ s.transactions[k]? = some x

theorem CommittedIn.append {start : System} {trace : List (Action × Outcome)} {x : Transaction}
    {time : Stamp} (h : CommittedIn start trace x time) (more : List (Action × Outcome)) :
    CommittedIn start (trace ++ more) x time := by
  obtain ⟨before, k, after, s, rfl, hrun, hx⟩ := h
  exact ⟨before, k, after ++ more, s, by simp, hrun, hx⟩

/-- A transaction keeps its number and what it has seen, and does not come back. -/
theorem Deed.transaction {a : Action} {o : Outcome} (h : Deed s s' a o) {k : Nat} {x : Transaction}
    (hx : s.transactions[k]? = some x) :
    ∃ x', s'.transactions[k]? = some x' ∧ x'.id = x.id ∧ x'.start = x.start ∧
      (x'.state = .active → x.state = .active) := by
  have hput {j : Nat} {y y' : Session} (hy : s.session? j = some y)
      (hid : y'.transaction.id = y.transaction.id) (hstart : y'.transaction.start = y.transaction.start)
      (hstate : y'.transaction.state = .active → y.transaction.state = .active) :
      ∃ x', (s.put j y').transactions[k]? = some x' ∧ x'.id = x.id ∧ x'.start = x.start ∧
        (x'.state = .active → x.state = .active) := by
    obtain ⟨-, htr⟩ := session?_eq_some.mp hy
    rw [transactions_put hy]
    split
    · rename_i hj
      obtain rfl := Option.some.inj (htr.symm.trans (hj ▸ hx))
      exact ⟨_, rfl, hid, hstart, hstate⟩
    · exact ⟨x, hx, rfl, rfl, id⟩
  cases h with
  | acts j y y' ha hy hm hacts _ h =>
    rw [h]
    exact hput hy hm.id_eq hm.start_eq hacts.state
  | begun h =>
    rw [h]
    exact ⟨x, by rw [List.getElem?_append_left (List.getElem?_eq_some_iff.mp hx).1, hx], rfl, rfl,
      id⟩
  | committed j y y' hy hsy hw h hput' =>
    rw [hput']
    refine hput hy ?_ ?_ fun _ => hw.active
    · rw [h.transaction_eq]
      rfl
    · rw [h.transaction_eq]
      rfl
  | created name definitions id h heq => exact ⟨x, heq ▸ hx, rfl, rfl, fun h => h⟩
  | dropped name h heq => exact ⟨x, heq ▸ hx, rfl, rfl, fun h => h⟩
  | refused a e ha h => exact ⟨x, h ▸ hx, rfl, rfl, fun h => h⟩

/-! ## What becomes of a committed version -/

/-- A version in a column of a row was committed at a time, and only transactions that saw it have
committed another one since, or the deletion of the row. -/
structure Follows (start : System) (trace : List (Action × Outcome)) (s : System) (id : TableId)
    (i r : Nat) (v : Version) (t : Table) (st : RowStamps) (front later : List Version) : Prop where
  table : s.database.catalog.tables[id]? = some t
  stamps : t.stamps? r = some st
  inserted_le : st.inserted ≤ v.stamp
  chain : committedUpTo s.database.lastCommit (t.chain i r) = front ++ v :: later
  later : ∀ w ∈ later, v.stamp < w.stamp ∧
    ∃ x, CommittedIn start trace x w.stamp ∧ v.stamp ≤ x.start ∧ x.HasUpdated id i r
  deleted : st.deleted ≤ s.database.lastCommit → v.stamp < st.deleted ∧
    ∃ x, CommittedIn start trace x st.deleted ∧ v.stamp ≤ x.start ∧ x.HasDeleted id r

theorem Follows.mem {start : System} {trace : List (Action × Outcome)} {i r : Nat} {v : Version}
    {st : RowStamps} {front later : List Version}
    (h : Follows start trace s id i r v t st front later) :
    v ∈ committedUpTo s.database.lastCommit (t.chain i r) := by
  rw [h.chain]
  exact List.mem_append_right _ List.mem_cons_self

/-- **Every step** leaves it at that. -/
theorem Follows.step {start : System} {trace : List (Action × Outcome)} {a : Action} {o : Outcome}
    {i r : Nat} {v : Version} {st : RowStamps} {front later : List Version}
    (h : Follows start trace s id i r v t st front later) (hrun : Run start trace s)
    (hd : Deed s s' a o) (hs : s.Sound) (hr : s.Room) (hg : s.Guarded) :
    ∃ t' st' later', Follows start (trace ++ [(a, o)]) s' id i r v t' st' front later' := by
  obtain ⟨who, hp, hwho⟩ := hd.progress hs
  obtain ⟨t', ht', hmoves⟩ := hp.tables id t h.table
  have hguard := hg id t h.table
  obtain ⟨st', hst', hins, -, hdel⟩ := hmoves.stamps hs hr h.table hguard h.stamps
  obtain ⟨hv, hvle⟩ := mem_committedUpTo.mp h.mem
  have hcommitted : ∀ x, who = some x →
      CommittedIn start (trace ++ [(a, o)]) x (s.database.lastCommit + 1) := by
    intro x hx
    obtain ⟨k, rfl, hk, rfl⟩ := hwho x hx
    exact ⟨trace, k, [], s, rfl, hrun, hk⟩
  have hdeleted : st'.deleted ≤ s'.database.lastCommit → v.stamp < st'.deleted ∧
      ∃ x, CommittedIn start (trace ++ [(a, o)]) x st'.deleted ∧ v.stamp ≤ x.start ∧
        x.HasDeleted id r := by
    intro hle
    rcases hdel hle with hold | ⟨x, hx, hhas, heq, hseen⟩
    · obtain ⟨st'', hst'', -, hkeep, -⟩ := hmoves.stamps hs hr h.table hguard h.stamps
      obtain rfl := Option.some.inj (hst'.symm.trans hst'')
      obtain ⟨hlt, x, hx, hstart, hhas⟩ := h.deleted hold
      rw [hkeep hold]
      exact ⟨hlt, x, hx.append _, hstart, hhas⟩
    · rw [heq]
      refine ⟨Nat.lt_succ_of_le hvle, x, hcommitted x hx, ?_, hhas⟩
      rcases sees_iff.mp (hseen i v hv) with hstart | hown
      · exact hstart
      · -- The number of a transaction is above all times.
        obtain ⟨k, -, hk, -⟩ := hwho x hx
        have hge := hs.ids x (List.mem_of_getElem? hk)
        rw [hown] at hvle
        exact absurd (Nat.lt_of_lt_of_le hs.database.last_lt hge) (Nat.not_lt_of_le hvle)
  rcases hmoves.chain hs hr h.table hguard i r with ⟨hsame, -⟩ | ⟨x, values, hx, hhas, -, hseen, -, hmore⟩
  · exact ⟨t', st', later, ht', hst', hins ▸ h.inserted_le, hsame.trans h.chain, fun w hw =>
      have ⟨hlt, x, hx, hrest⟩ := h.later w hw
      ⟨hlt, x, hx.append _, hrest⟩, hdeleted⟩
  · refine ⟨t', st', later ++ versionsOf (s.database.lastCommit + 1) values, ht', hst',
      hins ▸ h.inserted_le, by rw [hmore, h.chain]; simp, fun w hw => ?_, hdeleted⟩
    rcases List.mem_append.mp hw with hw | hw
    · obtain ⟨hlt, x, hx, hrest⟩ := h.later w hw
      exact ⟨hlt, x, hx.append _, hrest⟩
    · obtain ⟨-, -, rfl⟩ := List.mem_map.mp hw
      exact ⟨Nat.lt_succ_of_le hvle, x, hcommitted x hx, hseen v h.mem, hhas⟩

/-- Whoever writes to a chain has put versions there that are no commits. -/
theorem seen?_front {σ : Snapshot} (front : List Version) {v : Version} {rest : List Version}
    (hv : σ.sees v.stamp = true) (hrest : ∀ w ∈ rest, σ.sees w.stamp = false) :
    seen? (front ++ v :: rest) σ = some v.value := by
  have hnil : σ.versions rest = [] := List.filter_eq_nil_iff.mpr fun w hw => by simp [hrest w hw]
  have hsplit : front ++ v :: rest = (front ++ [v]) ++ rest := by simp
  rw [← Snapshot.seen?_versions, hsplit, Snapshot.versions_append, hnil, List.append_nil,
    Snapshot.seen?_versions, seen?_snoc, if_pos hv]

/-- The row of a committed version is there for later snapshots, unless they see its deletion. -/
theorem Follows.isVisible {start : System} {trace : List (Action × Outcome)} {i r : Nat}
    {v : Version} {st : RowStamps} {front later : List Version}
    (h : Follows start trace s id i r v t st front later) {σ : Snapshot} (hle : v.stamp ≤ σ.time)
    (hw : Watched (activeOf s.transactions) σ.transaction) (hdeleted : ¬st.deleted ≤ σ.time)
    (hdeletes : ¬∃ x ∈ activeOf s.transactions, x.id = σ.transaction ∧ st.deleted = x.id) :
    t.versions.isVisible? r σ = some true := by
  have hseen : σ.sees st.inserted = true :=
    sees_iff.mpr (Or.inl (Nat.le_trans h.inserted_le hle))
  have hunseen : σ.sees st.deleted = false := by
    rw [Bool.eq_false_iff]
    intro hsee
    rcases sees_iff.mp hsee with hd | hd
    · exact hdeleted hd
    · rcases hw with hz | ⟨y, hy, hz⟩
      · exact hdeleted (hd ▸ hz ▸ Nat.zero_le _)
      · exact hdeletes ⟨y, hy, hz.symm, hd.trans hz⟩
  rw [RowVersions.isVisible?, show t.versions.rows[r]? = some st from h.stamps, Option.map_some,
    RowStamps.isVisible, hseen, hunseen]
  rfl

/-- A committed version is what later snapshots read, unless they see one behind it. -/
theorem Follows.fetch {start : System} {trace : List (Action × Outcome)} {i r : Nat} {v : Version}
    {st : RowStamps} {front later : List Version}
    (h : Follows start trace s id i r v t st front later) (hs : s.Sound) (hg : s.Guarded)
    {σ : Snapshot} (hle : v.stamp ≤ σ.time) (hlast : σ.time ≤ s.database.lastCommit)
    (hw : Watched (activeOf s.transactions) σ.transaction)
    (hlater : ¬∃ w ∈ later, w.stamp ≤ σ.time)
    (hwrites : ¬∃ x ∈ activeOf s.transactions, x.id = σ.transaction ∧ x.images id i r ≠ []) :
    (t.fetch s.database.source i r σ).result = .ok v.value := by
  have hn := numbered hs.database
  have hunseen : ∀ w ∈ later, σ.sees w.stamp = false := by
    intro w hw'
    rw [Bool.eq_false_iff]
    intro hsee
    rcases sees_iff.mp hsee with hd | hd
    · exact hlater ⟨w, hw', hd⟩
    · have hmem : w ∈ committedUpTo s.database.lastCommit (t.chain i r) := by
        rw [h.chain]
        exact List.mem_append_right _ (List.mem_cons_of_mem _ hw')
      have hwle := (mem_committedUpTo.mp hmem).2
      rcases hw with hz | ⟨y, hy, hz⟩
      · exact hlater ⟨w, hw', hd ▸ hz ▸ Nat.zero_le _⟩
      · exact absurd ((hd.trans hz) ▸ hwle) (Nat.not_le_of_lt (hn.ids y hy).1)
  -- Behind what is committed there may be versions of somebody else, who is not the reader.
  obtain ⟨rest, hchain, hrest⟩ : ∃ rest, t.chain i r = front ++ v :: rest ∧
      ∀ w ∈ rest, σ.sees w.stamp = false := by
    rcases ((hs.database.owned id t h.table).cells i r).split (fun y hy => (hn.ids y hy).1)
      ((hg id t h.table).ordered i r) with
      ⟨hchain, -⟩ | ⟨y, hy, values, -, himages, hchain, -, -⟩
    · exact ⟨later, hchain.trans h.chain, hunseen⟩
    · refine ⟨later ++ versionsOf y.id values, by rw [hchain, h.chain]; simp, fun w hw' => ?_⟩
      rcases List.mem_append.mp hw' with hw' | hw'
      · exact hunseen w hw'
      · obtain ⟨-, -, rfl⟩ := List.mem_map.mp hw'
        rw [Bool.eq_false_iff]
        intro hsee
        rcases sees_iff.mp hsee with hd | hd
        · exact absurd (Nat.le_trans hd hlast) (Nat.not_le_of_lt (hn.ids y hy).1)
        · exact hwrites ⟨y, hy, hd, himages⟩
  rw [Table.fetch_result _ _ (Table.of_stamps? h.stamps), Table.value, readOver, hchain,
    seen?_front front (sees_iff.mpr (Or.inl hle)) hrest]

/-- **A committed version is what later snapshots read,** until somebody who saw it writes there or
deletes the row. -/
theorem Follows.reads {start : System} {trace : List (Action × Outcome)} {i r : Nat} {v : Version}
    {st : RowStamps} {front later : List Version}
    (h : Follows start trace s id i r v t st front later) (hs : s.Sound) (hg : s.Guarded)
    {σ : Snapshot} (hle : v.stamp ≤ σ.time) (hlast : σ.time ≤ s.database.lastCommit)
    (hw : Watched (activeOf s.transactions) σ.transaction) :
    (t.versions.isVisible? r σ = some true ∧
        (t.fetch s.database.source i r σ).result = .ok v.value) ∨
      (∃ x time, CommittedIn start trace x time ∧ time ≤ σ.time ∧ v.stamp ≤ x.start ∧
        (x.HasUpdated id i r ∨ x.HasDeleted id r)) ∨
      ∃ x ∈ activeOf s.transactions, x.id = σ.transaction ∧ v.stamp ≤ x.start ∧
        (x.HasUpdated id i r ∨ x.HasDeleted id r) := by
  have hn := numbered hs.database
  have hguard := hg id t h.table
  have hown := hs.database.owned id t h.table
  -- Whoever writes to the cell or deletes the row now, and is the reader.
  by_cases hwrites : ∃ x ∈ activeOf s.transactions, x.id = σ.transaction ∧ x.images id i r ≠ []
  · obtain ⟨x, hx, hid, himages⟩ := hwrites
    rcases (hown.cells i r).split (fun y hy => (hn.ids y hy).1) (hguard.ordered i r) with
      ⟨-, hnone⟩ | ⟨y, hy, values, -, -, -, hseen, honly⟩
    · exact absurd (hnone x hx) himages
    · obtain rfl := hn.distinct x hx y hy (honly x hx himages)
      exact Or.inr (Or.inr ⟨x, hx, hid, hseen v h.mem,
        Or.inl (Transaction.hasUpdated_of_images himages)⟩)
  by_cases hdeletes : ∃ x ∈ activeOf s.transactions, x.id = σ.transaction ∧ st.deleted = x.id
  · obtain ⟨x, hx, hid, hd⟩ := hdeletes
    refine Or.inr (Or.inr ⟨x, hx, hid, ?_, Or.inr ?_⟩)
    · obtain ⟨hv, hvle⟩ := mem_committedUpTo.mp h.mem
      exact hn.le_start hx hvle (hguard.held r st h.stamps x hx hd i v hv)
    · have hrow := hown.rows r
      rw [h.stamps] at hrow
      exact Transaction.hasDeleted_iff.mpr ((hn.deleted_eq_iff hx hrow).mp hd)
  by_cases hcommitted : (∃ w ∈ later, w.stamp ≤ σ.time) ∨ st.deleted ≤ σ.time
  · refine Or.inr (Or.inl ?_)
    rcases hcommitted with ⟨w, hw, hwle⟩ | hd
    · obtain ⟨-, x, hx, hstart, hhas⟩ := h.later w hw
      exact ⟨x, _, hx, hwle, hstart, Or.inl hhas⟩
    · obtain ⟨-, x, hx, hstart, hhas⟩ := h.deleted (Nat.le_trans hd hlast)
      exact ⟨x, _, hx, hd, hstart, Or.inr hhas⟩
  obtain ⟨hlater, hdeleted⟩ := not_or.mp hcommitted
  exact Or.inl ⟨h.isVisible hle hw hdeleted hdeletes, h.fetch hs hg hle hlast hw hlater hwrites⟩

/-! ## Runs -/

/-- A system in which no transaction has begun, so that all there is is committed. -/
structure Resting (s : System) : Prop where
  sound : s.Sound
  none : s.transactions = []
  ordered : ∀ (id : Nat) (t : Table), s.database.catalog.tables[id]? = some t →
    ∀ i r, Ordered (t.chain i r)

theorem Resting.guarded (h : s.Resting) : s.Guarded := by
  intro id t ht
  have hown := h.sound.database.owned id t ht
  rw [h.none] at hown
  have hle : ∀ i r, ∀ v ∈ t.chain i r, v.stamp ≤ s.database.lastCommit := fun i r =>
    (hown.cells i r).settled_of_nil
  refine ⟨fun i r => ?_, fun r st _ _ i v hv => hle i r v hv, fun r st _ x hx => ?_⟩
  · rw [committedUpTo_of_le (hle i r)]
    exact h.ordered id t ht i r
  · rw [h.none] at hx
    cases hx

/-- **A row whose deletion is committed stays deleted.** -/
theorem Run.deleted {start : System} {trace : List (Action × Outcome)} (hrun : Run start trace s)
    (ho : Orderly trace) (h : start.Sound) (hg : start.Guarded) {n : Nat}
    (hn : start.Counts (trace.length + n)) {r : Nat} {st : RowStamps}
    (ht : start.database.catalog.tables[id]? = some t) (hst : t.stamps? r = some st)
    (hd : st.deleted ≤ start.database.lastCommit) :
    ∃ t' st', s.database.catalog.tables[id]? = some t' ∧ t'.stamps? r = some st' ∧
      st'.deleted = st.deleted ∧ st'.deleted ≤ s.database.lastCommit := by
  obtain ⟨-, -, -, hP⟩ := hrun.guarded_keeps ho h hg hn (P := fun _ s =>
    ∃ t' st', s.database.catalog.tables[id]? = some t' ∧ t'.stamps? r = some st' ∧
      st'.deleted = st.deleted ∧ st'.deleted ≤ s.database.lastCommit) ⟨t, st, ht, hst, rfl, hd⟩
    fun trace s s' a o _ hs hr hg hdeed hstep _ ⟨t, st₁, ht, hst, heq, hle⟩ => by
      obtain ⟨who, hp, -⟩ := hdeed.progress hs
      obtain ⟨t', ht', hmoves⟩ := hp.tables id t ht
      obtain ⟨st', hst', -, hkeep, -⟩ := hmoves.stamps hs hr ht (hg id t ht) hst
      refine ⟨t', st', ht', hst', (hkeep hle).trans heq, ?_⟩
      rw [hkeep hle]
      exact Nat.le_trans hle hmoves.last_le
  exact hP

/-- **The versions that a transaction commits are followed** from its commit on. -/
theorem Run.follows {start : System} {trace : List (Action × Outcome)} (hrun : Run start trace s)
    (ho : Orderly trace) (h : start.Sound) (hg : start.Guarded) {n : Nat}
    (hn : start.Counts (trace.length + n)) {i r : Nat} {v : Version} {st : RowStamps}
    {front : List Version} (hf : Follows start [] start id i r v t st front []) :
    ∃ t' st' later, Follows start trace s id i r v t' st' front later := by
  obtain ⟨-, -, -, hP⟩ := hrun.guarded_keeps ho h hg hn (P := fun trace s =>
    ∃ t' st' later, Follows start trace s id i r v t' st' front later) ⟨t, st, [], hf⟩
    fun trace s s' a o hrun hs hr hg hdeed _ _ ⟨t, st, later, hf⟩ => hf.step hrun hdeed hs hr hg
  exact hP

/-- What the commit of a transaction leaves of the rows that it has deleted. -/
theorem Moves.deleted {x : Transaction} (hs : s.Sound)
    (ht : s.database.catalog.tables[id]? = some t) (h : Moves s s' (some x) id t t')
    (hx : x ∈ activeOf s.transactions) {r : Nat} (hd : x.HasDeleted id r) :
    ∃ st, t'.stamps? r = some st ∧ st.deleted = s.database.lastCommit + 1 := by
  have hrow := (hs.database.owned id t ht).rows r
  have hm := Transaction.hasDeleted_iff.mp hd
  cases h with
  | stays hwho => cases hwho
  | touched y hwho => cases hwho
  | commits y hwho hy h hlast =>
    obtain rfl := Option.some.inj hwho
    cases hst : t.stamps? r with
    | none =>
      rw [hst] at hrow
      exact absurd hm (hrow x hx)
    | some st =>
      rw [hst] at hrow
      rw [h.stamps_old r (Table.of_stamps? hst), hst, Option.map_some]
      refine ⟨_, rfl, ?_⟩
      rw [RowStamps.commitDelete,
        if_pos (((numbered hs.database).deleted_eq_iff hx hrow).mpr hm)]
      rfl

/-- The numbers and the state of a transaction in a run. -/
theorem Run.transaction {start : System} {trace : List (Action × Outcome)} (hrun : Run start trace s)
    (ho : Orderly trace) (h : start.Sound) (hg : start.Guarded) {n : Nat}
    (hn : start.Counts (trace.length + n)) {k : Nat} {x : Transaction}
    (hx : start.transactions[k]? = some x) :
    ∃ x', s.transactions[k]? = some x' ∧ x'.id = x.id ∧ x'.start = x.start ∧
      (x'.state = .active → x.state = .active) := by
  obtain ⟨-, -, -, hP⟩ := hrun.guarded_keeps ho h hg hn (P := fun _ s =>
    ∃ x', s.transactions[k]? = some x' ∧ x'.id = x.id ∧ x'.start = x.start ∧
      (x'.state = .active → x.state = .active)) ⟨x, hx, rfl, rfl, id⟩
    fun _ s s' _ _ _ _ _ _ hdeed _ _ ⟨y, hy, hid, hstart, hstate⟩ => by
      obtain ⟨y', hy', hid', hstart', hstate'⟩ := hdeed.transaction hy
      exact ⟨y', hy', hid'.trans hid, hstart'.trans hstart, fun h => hstate (hstate' h)⟩
  exact hP

end System
end ColumnStore
