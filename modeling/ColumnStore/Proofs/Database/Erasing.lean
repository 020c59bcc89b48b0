/-
# What is left of a transaction that is rolled back

Nothing is: where its number stood there is what was there before it, and everything else is as it
was (`Erases`).  That nobody else notices a rollback, together with the records of the transactions
that are left, does not allow anything else (`Session.rollback_erases`).

A rollback comes about in several ways, and all of them leave the same: by asking for it, by the
next write or the commit of a cancelled transaction, by letting go of the transaction, and by the
commit of a change of a table that was dropped.
-/

import ColumnStore.Proofs.Database.Minding

namespace ColumnStore

/-- The stamps of a row without its deletion by a transaction. -/
def RowStamps.without (id : Stamp) (st : RowStamps) : RowStamps :=
  if st.deleted = id then st.withDeleted neverDeleted else st

/-- A table without the stamps of a transaction: rows that it had marked deleted are not deleted, its
versions are gone, and the rest is as it was. -/
structure Table.Erases (id : Stamp) (t t' : Table) : Prop where
  keeps : Table.Keeps t t'
  stamps_eq : ∀ r, t'.stamps? r = (t.stamps? r).map (RowStamps.without id)
  chain_eq : ∀ i r, t'.chain i r = (t.chain i r).filter (·.stamp ≠ id)

/-! ## What watchers see fixes what there is -/

section Watching

variable {last : Stamp} {active others : List Transaction} {x : Transaction} {table : TableId}
  {column row : Nat}

/-- Who may have a stamp that is not the time of a commit: nobody, or an active transaction. -/
def Watched (active : List Transaction) (z : Stamp) : Prop := z = 0 ∨ ∃ y ∈ active, z = y.id

theorem watched_cases {z : Stamp} (h : Watched (x :: others) z) : Watched others z ∨ z = x.id := by
  rcases h with rfl | ⟨y, hy, rfl⟩
  · exact Or.inl (Or.inl rfl)
  · rcases List.mem_cons.mp hy with rfl | hy
    · exact Or.inr rfl
    · exact Or.inl (Or.inr ⟨y, hy, rfl⟩)

/-- A watcher sees what is committed and what one other transaction does. -/
theorem sees_watcher {z stamp : Stamp} (h : last < stamp) (hne : stamp ≠ z) :
    Snapshot.sees ⟨last, z⟩ stamp = false := by
  rw [Bool.eq_false_iff]
  intro hs
  rcases sees_iff.mp hs with hle | heq
  · exact absurd hle (Nat.not_le_of_lt h)
  · exact hne heq

/-- The deletion stamp of a row is a time, or nobody's, or that of an active transaction. -/
theorem RowOwned.deleter {st : RowStamps} (h : RowOwned last active table row (some st)) :
    st.inserted ≤ last ∧
      (st.deleted = neverDeleted ∨ ∃ z, Watched active z ∧ (st.deleted ≤ last ∨ st.deleted = z)) := by
  obtain ⟨hi, ⟨hd | hd, -⟩ | ⟨y, hy, hd, -, -⟩⟩ := h
  · exact ⟨hi, Or.inr ⟨0, Or.inl rfl, Or.inl hd⟩⟩
  · exact ⟨hi, Or.inl hd⟩
  · exact ⟨hi, Or.inr ⟨y.id, Or.inr ⟨y, hy, rfl⟩, Or.inr hd⟩⟩

/-- The stamps in a column of a row are times or those of a single active transaction. -/
theorem CellOwned.owner {under : Except StorageError Scalar} {chain : List Version}
    (h : CellOwned last active table column row under chain) :
    ∃ z, Watched active z ∧ ∀ v ∈ chain, v.stamp ≤ last ∨ v.stamp = z := by
  rcases h with ⟨hs, -⟩ | ⟨y, settled, values, hy⟩
  · exact ⟨0, Or.inl rfl, fun v hv => Or.inl (hs v hv)⟩
  · refine ⟨y.id, Or.inr ⟨y, hy.mem, rfl⟩, fun v hv => ?_⟩
    rw [hy.chain_eq] at hv
    rcases List.mem_append.mp hv with hv | hv
    · exact Or.inl (hy.settled_le v hv)
    · obtain ⟨-, -, rfl⟩ := List.mem_map.mp hv
      exact Or.inr rfl

/-- What a snapshot sees of the stamps of a row that it sees all of. -/
theorem stamps?_watcher {z : Stamp} {st : RowStamps} (hi : st.inserted ≤ last)
    (hd : st.deleted = neverDeleted ∨ st.deleted ≤ last ∨ st.deleted = z) :
    Snapshot.stamps? ⟨last, z⟩ st = some st := by
  rw [Snapshot.stamps?, if_pos (sees_iff.mpr (Or.inl hi))]
  rcases hd with hd | hd
  · split
    · rfl
    · rw [← hd, RowStamps.withDeleted]
  · rw [if_pos (sees_iff.mpr hd)]

/-- **A row of which no watcher notices a change is as it was,** apart from a deletion by a
transaction that is gone. -/
theorem RowOwned.erased {o o' : Option RowStamps} (h : RowOwned last (x :: others) table row o)
    (h' : RowOwned last others table row o') (ho : ∀ y ∈ others, y.id ≠ x.id)
    (hids : ∀ y ∈ x :: others, last < y.id ∧ y.id < neverDeleted)
    (hlook : ∀ z, Watched others z → o'.bind (Snapshot.stamps? ⟨last, z⟩) =
      o.bind (Snapshot.stamps? ⟨last, z⟩)) :
    o' = o.map (RowStamps.without x.id) := by
  have hx := hids x List.mem_cons_self
  have hne : ∀ z, Watched others z → z < neverDeleted ∧ x.id ≠ z := by
    rintro z (rfl | ⟨y, hy, rfl⟩)
    · exact ⟨by decide, Nat.ne_of_gt (Nat.zero_lt_of_lt hx.1)⟩
    · exact ⟨(hids y (List.mem_cons_of_mem _ hy)).2, (ho y hy).symm⟩
  cases o with
  | none =>
    cases o' with
    | none => rfl
    | some st' =>
      have hl := hlook 0 (Or.inl rfl)
      rw [Option.bind_some, Snapshot.stamps?, if_pos (sees_iff.mpr (Or.inl h'.1))] at hl
      cases hl
  | some st =>
    obtain ⟨hi, hd⟩ := h.deleter
    -- The watcher of whoever has deleted the row by now sees all of it.
    obtain ⟨z, hz, hl⟩ : ∃ z, Watched others z ∧
        o' = Snapshot.stamps? ⟨last, z⟩ st := by
      cases o' with
      | none =>
        have hl := hlook 0 (Or.inl rfl)
        exact ⟨0, Or.inl rfl, hl⟩
      | some st' =>
        obtain ⟨hi', hd'⟩ := h'.deleter
        obtain ⟨z, hz, hd'⟩ : ∃ z, Watched others z ∧
            (st'.deleted = neverDeleted ∨ st'.deleted ≤ last ∨ st'.deleted = z) := by
          rcases hd' with hd' | ⟨z, hz, hd'⟩
          · exact ⟨0, Or.inl rfl, Or.inl hd'⟩
          · exact ⟨z, hz, Or.inr hd'⟩
        have hl := hlook z hz
        rw [Option.bind_some, stamps?_watcher hi' hd'] at hl
        exact ⟨z, hz, hl⟩
    have hzne := (hne z hz).2
    rw [hl, Option.map_some, RowStamps.without]
    rcases hd with hd | ⟨w, hw, hd⟩
    · rw [stamps?_watcher hi (Or.inl hd), if_neg (hd ▸ Nat.ne_of_gt hx.2)]
    · rcases hd with hd | rfl
      · rw [stamps?_watcher hi (Or.inr (Or.inl hd)),
          if_neg (Nat.ne_of_lt (Nat.lt_of_le_of_lt hd hx.1))]
      · rcases watched_cases hw with hw | hw
        · -- Whoever watches the transaction that deletes the row sees the deletion stay.
          rw [if_neg (hne _ hw).2.symm]
          have hl' := hlook _ hw
          rw [hl, Option.bind_some, stamps?_watcher hi (Or.inr (Or.inr rfl))] at hl'
          by_cases hsee : Snapshot.sees ⟨last, z⟩ st.deleted = true
          · rw [Snapshot.stamps?, if_pos (sees_iff.mpr (Or.inl hi)), if_pos hsee]
          · have hi' : (st.withDeleted neverDeleted).inserted ≤ last := hi
            rw [Snapshot.stamps?, if_pos (sees_iff.mpr (Or.inl hi)), if_neg hsee, Option.bind_some,
              stamps?_watcher hi' (Or.inl rfl)] at hl'
            have := congrArg RowStamps.deleted (Option.some.inj hl')
            exact absurd this.symm (Nat.ne_of_lt (hne _ hw).1)
        · rw [if_pos hw, Snapshot.stamps?, if_pos (sees_iff.mpr (Or.inl hi)), hw,
            if_neg (Bool.eq_false_iff.mp (sees_watcher hx.1 hzne))]

/-- **A chain of which no watcher notices a change is as it was,** apart from the versions of a
transaction that is gone. -/
theorem CellOwned.erased {under under' : Except StorageError Scalar} {chain chain' : List Version}
    (h : CellOwned last (x :: others) table column row under chain)
    (h' : CellOwned last others table column row under' chain')
    (ho : ∀ y ∈ others, y.id ≠ x.id) (hids : last < x.id)
    (hlook : ∀ z, Watched others z → Snapshot.versions ⟨last, z⟩ chain' =
      Snapshot.versions ⟨last, z⟩ chain) :
    chain' = chain.filter (·.stamp ≠ x.id) := by
  have hne : ∀ z, Watched others z → x.id ≠ z := by
    rintro z (rfl | ⟨y, hy, rfl⟩)
    · exact Nat.ne_of_gt (Nat.zero_lt_of_lt hids)
    · exact (ho y hy).symm
  obtain ⟨z', hz', hall'⟩ := h'.owner
  obtain ⟨w, hw, hall⟩ := h.owner
  have heq : chain' = Snapshot.versions ⟨last, z'⟩ chain := by
    rw [← hlook z' hz']
    exact (List.filter_eq_self.mpr fun v hv => sees_iff.mpr (hall' v hv)).symm
  rw [heq, Snapshot.versions]
  refine List.filter_congr fun v hv => ?_
  by_cases hvx : v.stamp = x.id
  · rw [hvx, sees_watcher hids (hne z' hz')]
    simp
  · rw [decide_eq_true hvx, sees_iff]
    rcases hall v hv with hle | rfl
    · exact Or.inl hle
    · rcases watched_cases hw with hw | hw
      · -- Its own watcher sees that the version is still there.
        have hmem : v ∈ Snapshot.versions ⟨last, v.stamp⟩ chain' := by
          rw [hlook _ hw]
          exact List.mem_filter.mpr ⟨hv, sees_own _⟩
        exact hall' v (List.mem_filter.mp hmem).1
      · exact absurd hw hvx

end Watching

/-! ## Rolling back -/

namespace Session

/-- What a rollback leaves: tables without the stamps of the transaction, and the transaction
aborted, without changes, and not listed as active. -/
structure RolledBack (s s' : Session) : Prop where
  tables : Catalog.Each (fun _ => Table.Erases s.transaction.id) s.database.catalog
    s'.database.catalog
  database_eq : s'.database = { s.database with
    catalog := s'.database.catalog
    decoded := s'.database.decoded
    active := s.database.active.filter (· ≠ s.transaction.id) }
  transaction_eq : s'.transaction = { s.transaction.forget with state := .aborted }

variable {s : Session} {others : List Transaction}

/-- **A rollback erases the transaction and nothing else,** and the others go on as before. -/
theorem rollback_erases (h : s.database.Sound (s.transaction :: others))
    (hactive : s.transaction.state = .active) :
    ∃ s', s.rollback = (.ok (), s') ∧ RolledBack s s' ∧ s'.database.Sound others := by
  obtain ⟨db, he, hs, hq⟩ := rollback_ok h hactive
  refine ⟨_, he, ⟨⟨hq.names_eq, hq.size_eq, fun j t ht => ?_⟩, ?_, rfl⟩, hs⟩
  · obtain ⟨t', ht', hk, hlook⟩ := hq.tables j t ht
    have hown := h.owned j t ht
    have hown' := hs.owned j t' ht'
    have hlast : (db.unregister s.transaction.id).lastCommit = s.database.lastCommit := by
      rw [hq.rest_eq]
      rfl
    rw [hlast] at hown'
    -- A watcher of one of the others sees neither the transaction nor what nobody deleted.
    have hwatch : ∀ z, Watched others z → Table.Looks ⟨s.database.lastCommit, z⟩ t t' := by
      have hid := h.last_lt_ids _ List.mem_cons_self
      have hnever : s.database.lastCommit < neverDeleted :=
        Nat.lt_trans hid (h.ids_lt _ List.mem_cons_self)
      rintro z (rfl | ⟨y, hy, rfl⟩)
      · exact hlook _ (sees_watcher hid (Nat.ne_of_gt (Nat.zero_lt_of_lt hid)))
          (sees_watcher hnever (by decide))
      · exact hlook _ (sees_watcher hid (h.others_ne y hy).symm)
          (sees_watcher hnever (Nat.ne_of_gt (h.ids_lt y (List.mem_cons_of_mem _ hy))))
    refine ⟨t', ht', hk, fun r => ?_, fun i r => ?_⟩
    · exact (hown.rows r).erased (hown'.rows r) h.others_ne
        (fun y hy => ⟨h.last_lt_ids y hy, h.ids_lt y hy⟩) fun z hz => (hwatch z hz).stamps_eq r
    · exact (hown.cells i r).erased (hown'.cells i r) h.others_ne
        (h.last_lt_ids _ List.mem_cons_self) fun z hz => (hwatch z hz).versions_eq i r
  · rw [Database.unregister, hq.rest_eq]

end Session
end ColumnStore
