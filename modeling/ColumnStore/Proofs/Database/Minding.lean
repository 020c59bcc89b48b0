/-
# What a transaction leaves to the others

Whatever a transaction does short of a commit, the others do not notice, and the database stays
sound for them and for the transaction as long as it is active (`Minds`).
-/

import ColumnStore.Proofs.Database.Schema
import ColumnStore.Proofs.Storage.Stored

namespace ColumnStore

/-- The transactions of which a database has to know: those that are active. -/
def activeOf (xs : List Transaction) : List Transaction := xs.filter (·.state = .active)

theorem activeOf_cons_of_active {x : Transaction} (h : x.state = .active)
    (xs : List Transaction) : activeOf (x :: xs) = x :: activeOf xs :=
  List.filter_cons_of_pos (by simp [h])

theorem activeOf_cons_of_ended {x : Transaction} (h : x.state ≠ .active)
    (xs : List Transaction) : activeOf (x :: xs) = activeOf xs :=
  List.filter_cons_of_neg (by simp [h])

namespace Database

/-- Two states of a database that only differ in what the transaction with a number did while it was
active, and in the list of transactions. -/
def Silent (id : Stamp) (db db' : Database) : Prop :=
  Quiet id db { db' with active := db.active, nextTransaction := db.nextTransaction }

theorem Quiet.silent {id : Stamp} {db db' : Database} (h : Quiet id db db') (active : List Stamp)
    (next : Stamp) : Silent id db { db' with active, nextTransaction := next } := by
  have hactive : db'.active = db.active := by rw [h.rest_eq]
  have hnext : db'.nextTransaction = db.nextTransaction := by rw [h.rest_eq]
  rw [Silent, ← hactive, ← hnext]
  exact h

theorem Silent.rest_eq {id : Stamp} {db db' : Database} (h : Silent id db db') :
    db' = { db with
      catalog := db'.catalog, decoded := db'.decoded, active := db'.active
      nextTransaction := db'.nextTransaction } := by
  have hrest := Quiet.rest_eq h
  obtain ⟨disk, decoded, catalog, log, last, next, active, iteration, policy, block, vector,
    threshold⟩ := db'
  simp only [Database.mk.injEq] at hrest ⊢
  simp only [hrest, and_self]

theorem Silent.policy_eq {id : Stamp} {db db' : Database} (h : Silent id db db') :
    db'.policy = db.policy := by rw [h.rest_eq]

/-- **Beginning a transaction.** -/
theorem Sound.newTransaction {db : Database} {active : List Transaction} (h : db.Sound active)
    (hlt : db.nextTransaction < neverDeleted) :
    db.newTransaction.2.Sound (db.newTransaction.1 :: active) := by
  have hids : ∀ x ∈ active, x.id < db.nextTransaction := fun x hx => (h.ids x hx).2.1
  refine ⟨h.catalog, h.last_lt, Nat.le_succ_of_le h.next_ge, hlt, ?_, ?_, fun id => ?_, ?_,
    fun id t ht => (h.owned id t ht).insert rfl, h.kept⟩
  · refine List.nodup_cons.mpr ⟨fun hm => ?_, h.distinct⟩
    obtain ⟨x, hx, hid⟩ := List.mem_map.mp hm
    exact Nat.ne_of_lt (hids x hx) hid
  · refine List.forall_mem_cons.mpr ⟨⟨h.next_ge, Nat.lt_succ_self _, Nat.le_refl _⟩, fun x hx => ?_⟩
    obtain ⟨hge, hlt, hstart⟩ := h.ids x hx
    exact ⟨hge, Nat.lt_succ_of_lt hlt, hstart⟩
  · have hiff := h.listed id
    rw [List.map_cons]
    simp only [Database.newTransaction, List.mem_cons, hiff]
  · refine List.forall_mem_cons.mpr ⟨⟨.nil, ⟨List.nodup_nil, fun _ => rfl⟩, fun _ =>
      List.nodup_nil⟩, h.recorded⟩

end Database

namespace Session

/-- A transaction at work on a database that is sound for it and for others. -/
def Sound (s : Session) (others : List Transaction) : Prop :=
  s.database.Sound (activeOf (s.transaction :: others))

theorem Sound.ended {s : Session} {others : List Transaction} (h : s.Sound others)
    (hx : s.transaction.state ≠ .active) : s.database.Sound (activeOf others) := by
  rw [Sound, activeOf_cons_of_ended hx] at h
  exact h

theorem Sound.active {s : Session} {others : List Transaction} (h : s.Sound others)
    (hx : s.transaction.state = .active) :
    s.database.Sound (s.transaction :: activeOf others) := by
  rw [Sound, activeOf_cons_of_active hx] at h
  exact h

/-- What a transaction did that the others do not notice. -/
structure Minds (s s' : Session) (others : List Transaction) : Prop where
  sound : s'.Sound others
  silent : Database.Silent s.transaction.id s.database s'.database
  next_eq : s'.database.nextTransaction = s.database.nextTransaction
  id_eq : s'.transaction.id = s.transaction.id
  start_eq : s'.transaction.start = s.transaction.start

variable {s : Session} {others : List Transaction}

theorem minds_refl (h : s.Sound others) : Minds s s others :=
  ⟨h, (h.quiet_refl s.transaction.id).silent s.database.active _, rfl, rfl, rfl⟩

/-- Reading keeps what was read. -/
theorem minds_remember (h : s.Sound others) {decoded : Decoded}
    (hs : (s.database.remember decoded).Sound (activeOf (s.transaction :: others))) :
    Minds s { s with database := s.database.remember decoded } others :=
  ⟨hs, (h.quiet_remember s.transaction.id decoded).silent s.database.active _, rfl, rfl, rfl⟩

/-- **Rolling back.** -/
theorem minds_rollback (h : s.Sound others) : Minds s s.rollback.2 others := by
  by_cases hx : s.transaction.state = .active
  · obtain ⟨db, he, hs, hq⟩ := rollback_ok (h.active hx) hx
    rw [he]
    refine ⟨?_, hq.silent _ _, hq.next_eq, rfl, rfl⟩
    rw [Sound, activeOf_cons_of_ended (by simp)]
    exact hs
  · rw [rollback]
    split
    · exact minds_refl h
    · rw [Transaction.checkActive, if_neg hx]
      exact minds_refl h

/-- Whoever may not write rolls back or is refused. -/
theorem minds_whileActive {α : Type} (h : s.Sound others)
    {write : Session → Attempt TransactionError Session α}
    (hw : s.transaction.Writing → Minds s (write s).2 others) :
    Minds s (s.whileActive write).2 others := by
  by_cases hx : s.transaction.state = .active
  · cases hc : s.transaction.cancel.raised with
    | false =>
      have hwriting : s.transaction.Writing := ⟨hx, hc⟩
      rw [whileActive_writing hwriting]
      exact hw hwriting
    | true =>
      rw [whileActive_cancelled (h.active hx) hx hc]
      exact minds_rollback h
  · obtain ⟨e, he⟩ := whileActive_ended hx write
    rw [he]
    exact minds_refl h

variable {table : TableId} {t : Table}

/-- **Inserting.** -/
theorem minds_insert (h : s.Sound others) (ht : s.database.catalog.tables[table]? = some t)
    (c : Chunk) : Minds s (s.insert table c).2 others := by
  by_cases hw : s.transaction.Writing
  · have hs := h.active hw.active
    rcases insert_cases hs hw ht c with ⟨he, -⟩ | ⟨e, s', he, hr, hs'⟩ | ⟨s', he, hr, hs'⟩
    · rw [he]
      exact minds_refl h
    · rw [he]
      refine ⟨?_, ?_, ?_, by rw [hr.transaction_eq], by rw [hr.transaction_eq]⟩
      · rw [Sound, activeOf_cons_of_active (by rw [hr.transaction_eq]; exact hw.active)]
        exact hs'
      · rw [hr.database_eq]
        exact (h.quiet_refl _).silent _ _
      · rw [hr.database_eq]
    · rw [he]
      refine ⟨?_, ?_, ?_, by rw [hr.transaction_eq], by rw [hr.transaction_eq]⟩
      · rw [Sound, activeOf_cons_of_active (by rw [hr.transaction_eq]; exact hw.active)]
        exact hs'
      · rw [hr.database_eq]
        exact (h.quiet_refl _).silent _ _
      · rw [hr.database_eq]
  · exact minds_whileActive h fun hw' => absurd hw' hw

/-- **Deleting.** -/
theorem minds_delete (h : s.Sound others) (ht : s.database.catalog.tables[table]? = some t)
    (rows : List Nat) : Minds s (s.delete table rows).2 others := by
  by_cases hw : s.transaction.Writing
  · have hs := h.active hw.active
    rcases delete_cases hs hw ht rows with ⟨e, he⟩ | ⟨n, s', t', marked, he, hr, hs', hq⟩
    · rw [he]
      exact minds_refl h
    · rw [he]
      refine ⟨?_, ?_, ?_, by rw [hr.transaction_eq], by rw [hr.transaction_eq]⟩
      · rw [Sound, activeOf_cons_of_active (by rw [hr.transaction_eq]; exact hw.active)]
        exact hs'
      · exact hq.silent _ _
      · exact hq.next_eq
  · exact minds_whileActive h fun hw' => absurd hw' hw

/-- **Updating.** -/
theorem minds_update (h : s.Sound others) (ht : s.database.catalog.tables[table]? = some t)
    (column : Nat) (rows : List Nat) {values : ValueVector}
    (hvalues : ∀ i x, values.get? i = some x → x.fits values.type = true) :
    Minds s (s.update table column rows values).2 others := by
  by_cases hw : s.transaction.Writing
  · have hs := h.active hw.active
    rcases update_cases hs hw ht column rows hvalues with ⟨e, decoded, he, hs'⟩ |
      ⟨n, s', t', xs, targets, before, he, -, hr, hs', hq⟩
    · rw [he]
      refine minds_remember h ?_
      rw [activeOf_cons_of_active hw.active]
      exact hs'
    · rw [he]
      refine ⟨?_, ?_, ?_, by rw [hr.transaction_eq], by rw [hr.transaction_eq]⟩
      · rw [Sound, activeOf_cons_of_active (by rw [hr.transaction_eq]; exact hw.active)]
        exact hs'
      · exact hq.silent _ _
      · exact hq.next_eq
  · exact minds_whileActive h fun hw' => absurd hw' hw

/-- A scan changes nothing but what is kept. -/
theorem scanTable_state (h : s.Sound others) (ht : s.database.catalog.tables[table]? = some t)
    (columns : List Nat) (filters : List Filter) (vectorSize : Nat) : ∃ decoded,
      (s.database.scanTable s.transaction table columns filters vectorSize).2 =
        s.database.remember decoded ∧
      (s.database.remember decoded).Sound (activeOf (s.transaction :: others)) := by
  have htable : s.database.catalog.table table = t := Catalog.table_of_some ht
  unfold Database.scanTable
  rw [htable]
  split
  · exact ⟨[], rfl, h⟩
  · rename_i scan hscan
    obtain ⟨u, -, hscan⟩ := bind_eq_ok.mp hscan
    have hsafe : scan.table.Safe s.database.SafeFile := by
      have hnew := mapError_eq_ok.mp hscan
      have htab : scan.table = t := by
        unfold Scan.new at hnew
        split at hnew
        · cases hnew
        · obtain ⟨filters', -, hnew⟩ := bind_eq_ok.mp hnew
          rw [← Except.ok.inj hnew]
      rw [htab]
      exact (Database.Sound.owned h table t ht).safe
    have hhonest := Scan.honest_run hsafe s.database.source
    refine ⟨(scan.run s.database.source).decoded, ?_, Database.Sound.remember h hhonest⟩
    unfold Database.read
    dsimp only
    cases (scan.run s.database.source).result <;> rfl

/-- **Scanning.** -/
theorem minds_scan (h : s.Sound others) (ht : s.database.catalog.tables[table]? = some t)
    (columns : List Nat) (filters : List Filter) (vectorSize : Nat) :
    Minds s (s.onDatabase fun db =>
      db.scanTable s.transaction table columns filters vectorSize).2 others := by
  obtain ⟨decoded, he, hs⟩ := scanTable_state h ht columns filters vectorSize
  have := minds_remember h hs
  rw [← he] at this
  exact this

/-- **Cancelling.** -/
theorem minds_cancel (h : s.Sound others) : Minds s { s with
    transaction := { s.transaction with cancel := s.transaction.cancel.cancel } } others := by
  refine ⟨?_, (h.quiet_refl _).silent _ _, rfl, rfl, rfl⟩
  by_cases hx : s.transaction.state = .active
  · have hs := h.active hx
    have hrec := hs.recorded _ List.mem_cons_self
    rw [Sound, activeOf_cons_of_active (by exact hx)]
    exact hs.replace rfl rfl ⟨hrec.undoable, hrec.locals, hrec.nodup⟩ fun j =>
      SameRecords.of_undo s.transaction
        { s.transaction with cancel := s.transaction.cancel.cancel } rfl j
  · rw [Sound, activeOf_cons_of_ended (by exact hx)]
    exact h.ended hx

/-- **Letting go.** -/
theorem minds_abandon (h : s.Sound others) : Minds s { if s.transaction.state = .active then
    s.rollback.2 else s with database := s.abandon } others := by
  unfold abandon
  split
  · exact minds_rollback h
  · exact minds_refl h

/-- **Committing:** the others do not notice, unless there were changes. -/
theorem minds_commit (h : s.Sound others) (hlt : s.database.lastCommit + 1 < firstTransaction) :
    Minds s s.commit.2 others ∨
      (∃ s', s.commit = (.ok (s.database.lastCommit + 1), s') ∧ s.transaction.Writing ∧
        Commits s s' (s.database.lastCommit + 1) ∧ s'.Sound others) ∨
      ∃ e s', s.commit = (.error e, s') ∧ s.transaction.state = .active ∧
        s'.transaction.state = .committed := by
  by_cases hw : s.transaction.Writing
  · have hout := commit_outcome (h.active hw.active) hw hlt
    generalize s.commit = r at hout
    cases hout with
    | dropped name hd => exact Or.inl (minds_rollback h)
    | empty hu sound =>
      refine Or.inl ⟨?_, (h.quiet_refl _).silent _ _, rfl, rfl, rfl⟩
      rw [Sound, activeOf_cons_of_ended (by simp [committed])]
      exact sound
    | refused e decoded sound =>
      refine Or.inl (minds_remember h ?_)
      rw [activeOf_cons_of_active hw.active]
      exact sound
    | done s' hc sound =>
      refine Or.inr (Or.inl ⟨s', rfl, hw, hc, ?_⟩)
      rw [Sound, activeOf_cons_of_ended (by simp [hc.transaction_eq])]
      exact sound
    | lost e s' hstate => exact Or.inr (Or.inr ⟨e, s', rfl, hw.active, hstate⟩)
  · exact Or.inl (minds_whileActive h fun hw' => absurd hw' hw)

end Session
end ColumnStore
