/-
# What writers keep from each other

The check before a write looks at the stamps of the row and at the newest version of the columns that
are written, those of all columns for a deletion.  That is enough for an invariant of all chains of a
table (`Guarded`): the committed versions are in the order of their times, nobody has written to a row
that is deleted for everybody, and whoever deletes a row has seen all that is written there.
-/

import ColumnStore.Proofs.Database.Acting
import ColumnStore.Proofs.Database.Mirrors
import Mathlib.Data.List.Nodup

namespace ColumnStore

/-- The versions of a chain that were committed up to a time. -/
def committedUpTo (time : Stamp) (chain : List Version) : List Version :=
  (Snapshot.upTo time).versions chain

theorem mem_committedUpTo {time : Stamp} {chain : List Version} {v : Version} :
    v ∈ committedUpTo time chain ↔ v ∈ chain ∧ v.stamp ≤ time := by
  rw [committedUpTo, Snapshot.versions, List.mem_filter, sees_iff]
  refine and_congr_right fun _ => ⟨fun h => h.elim id fun h => ?_, Or.inl⟩
  rw [show v.stamp = 0 from h]
  exact Nat.zero_le _

theorem committedUpTo_of_le {time : Stamp} {chain : List Version} (h : ∀ v ∈ chain, v.stamp ≤ time) :
    committedUpTo time chain = chain :=
  List.filter_eq_self.mpr fun v hv => sees_iff.mpr (Or.inl (h v hv))

/-- What is written with a later stamp is not committed by then. -/
theorem committedUpTo_append_versionsOf {time stamp : Stamp} (h : time < stamp)
    (chain : List Version) (values : List Scalar) :
    committedUpTo time (chain ++ versionsOf stamp values) = committedUpTo time chain := by
  rw [committedUpTo, Snapshot.versions_append,
    Snapshot.versions_versionsOf_of_unseen (Snapshot.sees_upTo_of_lt h), List.append_nil,
    committedUpTo]

/-- Versions in the order of their stamps. -/
def Ordered (chain : List Version) : Prop := chain.Pairwise (·.stamp ≤ ·.stamp)

theorem Ordered.le_last {chain : List Version} (h : Ordered chain) {v w : Version} (hv : v ∈ chain)
    (hw : chain.getLast? = some w) : v.stamp ≤ w.stamp := by
  obtain ⟨front, rfl⟩ := List.getLast?_eq_some_iff.mp hw
  rcases List.mem_append.mp hv with hv | hv
  · exact (List.pairwise_append.mp h).2.2 v hv w List.mem_cons_self
  · obtain rfl := List.mem_singleton.mp hv
    exact Nat.le_refl _

/-- Later versions behind the others. -/
theorem Ordered.append {chain : List Version} (h : Ordered chain) {time : Stamp}
    (hle : ∀ v ∈ chain, v.stamp ≤ time) (values : List Scalar) :
    Ordered (chain ++ versionsOf time values) := by
  refine List.pairwise_append.mpr ⟨h, ?_, fun v hv w hw => ?_⟩
  · refine List.pairwise_map.mpr (List.pairwise_of_forall fun _ _ => Nat.le_refl _)
  · obtain ⟨-, -, rfl⟩ := List.mem_map.mp hw
    exact hle v hv

namespace Table

/-- What an operation of a transaction short of a commit does to a table. -/
inductive Touches (x : Transaction) (t t' : Table) : Prop
  | same (h : t' = t)
  | marks (rows : List Nat) (h : Restamps t t' rows (RowStamps.withDeleted x.id))
    (hw : ∀ r ∈ rows, t.Writable t.columns r x.snapshot)
  | writes (source : Source) (i : Nat) (pairs targets : List (Nat × Scalar))
    (before : List Scalar) (h : Updates t t' source i x.snapshot pairs targets before)
  | erases (h : Erases x.id t t')

/-- The committed versions are in order, nobody has written to a row that is deleted for everybody,
and whoever deletes a row has seen all that is written there. -/
structure Guarded (last : Stamp) (active : List Transaction) (t : Table) : Prop where
  ordered : ∀ i r, Ordered (committedUpTo last (t.chain i r))
  settled : ∀ r st, t.stamps? r = some st → st.deleted ≤ last →
    ∀ i, ∀ v ∈ t.chain i r, v.stamp ≤ last
  held : ∀ r st, t.stamps? r = some st → ∀ x ∈ active, st.deleted = x.id →
    ∀ i, ∀ v ∈ t.chain i r, x.snapshot.sees v.stamp = true

end Table

/-- **What an operation does to each table.** -/
theorem Session.Acts.touches {s s' : Session} {q : Option (TableId × Request)} (h : Acts s s' q) :
    Catalog.Each (fun _ => Table.Touches s.transaction) s.database.catalog
      s'.database.catalog := by
  have hsame (c : Catalog) : Catalog.Each (fun _ => Table.Touches s.transaction) c c :=
    ⟨rfl, rfl, fun j t ht => ⟨t, ht, .same rfl⟩⟩
  cases h with
  | idles h =>
    obtain ⟨decoded, hdb⟩ := h.database_eq
    rw [hdb]
    exact hsame _
  | nothing _ hc h =>
    rw [h]
    exact hsame _
  | inserts hw ht h =>
    rw [h.database_eq]
    exact hsame _
  | deletes hw ht h =>
    rw [h.database_eq]
    exact Catalog.each_setTable ht (.marks _ h.restamps fun r hr => (h.writable r hr).2)
      fun j u _ _ => .same rfl
  | overwrites hw ht hxs h =>
    obtain ⟨decoded, hdb⟩ := h.database_eq
    rw [hdb]
    exact Catalog.each_setTable ht (.writes _ _ _ _ _ h.updates) fun j u _ _ => .same rfl
  | closes hw hundo h =>
    rw [h]
    exact hsame _
  | erases hactive h =>
    exact ⟨h.tables.names_eq, h.tables.size_eq, fun j t ht =>
      have ⟨t', ht', he⟩ := h.tables.tables j t ht
      ⟨t', ht', .erases he⟩⟩

/-! ## One table -/

section Table

variable {last time : Stamp} {x : Transaction} {active others : List Transaction} {id : TableId}
  {source : Source} {safe : StoredValues → Prop} {t t' : Table}

/-- What is committed in a chain that a transaction writes to is what the others have written. -/
theorem CellHeldBy.committedUpTo_eq {column row : Nat} {under : Except StorageError Scalar}
    {chain settled : List Version} {values : List Scalar}
    (h : CellHeldBy last active id column row under chain x settled values) (hx : last < x.id) :
    committedUpTo last chain = settled := by
  rw [h.chain_eq, committedUpTo_append_versionsOf hx, committedUpTo_of_le h.settled_le]

/-- **Whoever sees the newest version of a column of a row sees them all.** -/
theorem CellOwned.seen_of_newest {column row : Nat} {under : Except StorageError Scalar}
    {chain : List Version} (h : CellOwned last active id column row under chain)
    (hids : ∀ y ∈ active, last < y.id) (hdistinct : ∀ y ∈ active, y.id = x.id → y = x)
    (hx : last < x.id) (hstart : x.start ≤ last) (hordered : Ordered (committedUpTo last chain))
    (hnewest : ∀ v, chain.getLast? = some v → x.snapshot.sees v.stamp = true) :
    ∀ v ∈ chain, x.snapshot.sees v.stamp = true := by
  intro v hv
  rcases h with ⟨hs, -⟩ | ⟨y, settled, values, hy⟩
  · rw [committedUpTo_of_le hs] at hordered
    obtain ⟨w, hw⟩ := List.getLast?_isSome.mpr (List.ne_nil_of_mem hv) |> Option.isSome_iff_exists.mp
    refine sees_iff.mpr (Or.inl ?_)
    rcases sees_iff.mp (hnewest w hw) with hle | heq
    · exact Nat.le_trans (hordered.le_last hv hw) hle
    · have := hs w (List.mem_of_getLast? hw)
      rw [heq] at this
      exact absurd this (Nat.not_le_of_lt hx)
  · have hlast := getLast?_append_versions settled y.id hy.nonempty
    rw [← hy.chain_eq] at hlast
    have hyx : y = x := by
      rcases sees_iff.mp (hnewest _ hlast) with hle | heq
      · exact absurd (Nat.le_trans hle hstart) (Nat.not_le_of_lt (hids y hy.mem))
      · exact hdistinct y hy.mem heq
    subst hyx
    rw [hy.committedUpTo_eq hx] at hordered
    rw [hy.chain_eq] at hv
    rcases List.mem_append.mp hv with hv | hv
    · obtain ⟨w, hw⟩ :=
        Option.isSome_iff_exists.mp (List.getLast?_isSome.mpr (List.ne_nil_of_mem hv))
      exact sees_iff.mpr (Or.inl (Nat.le_trans (hordered.le_last hv hw) (hy.newest w hw)))
    · obtain ⟨-, -, rfl⟩ := List.mem_map.mp hv
      exact sees_own y.snapshot

/-- A time before the numbers of all transactions is as good as the last commit. -/
theorem CellOwned.committedUpTo_eq {column row : Nat} {under : Except StorageError Scalar}
    {chain : List Version} (h : CellOwned last active id column row under chain)
    (hle : last ≤ time) (hids : ∀ y ∈ active, time < y.id) :
    committedUpTo time chain = committedUpTo last chain := by
  refine List.filter_congr fun v hv => Bool.eq_iff_iff.mpr ?_
  rw [sees_iff, sees_iff]
  refine or_congr_left ⟨fun hv' => ?_, fun hv' => Nat.le_trans hv' hle⟩
  obtain ⟨z, hz, hall⟩ := h.owner
  rcases hall v hv with hle | heq
  · exact hle
  · rcases hz with rfl | ⟨y, hy, rfl⟩
    · rw [heq]
      exact Nat.zero_le _
    · exact absurd (heq ▸ hv') (Nat.not_le_of_lt (hids y hy))

theorem RowOwned.deleted_le {row : Nat} {st : RowStamps}
    (h : RowOwned last active id row (some st)) (hids : ∀ y ∈ active, time < y.id)
    (hlt : time < neverDeleted) (hd : st.deleted ≤ time) : st.deleted ≤ last := by
  obtain ⟨-, ⟨hd' | hd', -⟩ | ⟨y, hy, hd', -, -⟩⟩ := h
  · exact hd'
  · exact absurd (hd' ▸ hd) (Nat.not_le_of_lt hlt)
  · exact absurd (hd' ▸ hd) (Nat.not_le_of_lt (hids y hy))

/-- **A chain is what is committed, and behind it what one active transaction has written,** who has
seen all that is committed. -/
theorem CellOwned.split {column row : Nat} {under : Except StorageError Scalar}
    {chain : List Version} (h : CellOwned last active id column row under chain)
    (hids : ∀ y ∈ active, last < y.id) (hordered : Ordered (committedUpTo last chain)) :
    (chain = committedUpTo last chain ∧ ∀ x ∈ active, x.images id column row = []) ∨
      ∃ x ∈ active, ∃ values, values ≠ [] ∧ x.images id column row ≠ [] ∧
        chain = committedUpTo last chain ++ versionsOf x.id values ∧
        (∀ v ∈ committedUpTo last chain, v.stamp ≤ x.start) ∧
        ∀ y ∈ active, y.images id column row ≠ [] → y.id = x.id := by
  rcases h with ⟨hs, hn⟩ | ⟨x, settled, values, hx⟩
  · exact Or.inl ⟨(committedUpTo_of_le hs).symm, hn⟩
  · have hcommitted := hx.committedUpTo_eq (hids x hx.mem)
    obtain ⟨below, -, himages⟩ := hx.images_eq
    refine Or.inr ⟨x, hx.mem, values, hx.nonempty, fun hnil => ?_, by rw [hcommitted, hx.chain_eq],
      fun v hv => ?_, fun y hy hi => ?_⟩
    · have := length_dropLast_cons below values
      rw [← himages, hnil] at this
      exact hx.nonempty (List.length_eq_zero_iff.mp this.symm)
    · rw [hcommitted] at hv
      obtain ⟨w, hw⟩ :=
        Option.isSome_iff_exists.mp (List.getLast?_isSome.mpr (List.ne_nil_of_mem hv))
      exact Nat.le_trans ((hcommitted ▸ hordered).le_last hv hw) (hx.newest w hw)
    · by_contra hne
      exact hi (hx.others y hy hne)

namespace Table

/-- The numbers of transactions, and what they have seen. -/
structure Numbered (last : Stamp) (active : List Transaction) : Prop where
  ids : ∀ y ∈ active, last < y.id ∧ y.id < neverDeleted ∧ y.start ≤ last
  distinct : ∀ y ∈ active, ∀ z ∈ active, y.id = z.id → y = z

/-- The deletion of a row carries the number of whoever has recorded it. -/
theorem Numbered.deleted_eq_iff (h : Numbered last active) (hx : x ∈ active) {r : Nat}
    {st : RowStamps} (hrow : RowOwned last active id r (some st)) :
    st.deleted = x.id ↔ r ∈ x.deletedRows id := by
  obtain ⟨hid, hnever, -⟩ := h.ids x hx
  obtain ⟨-, ⟨hd, hnone⟩ | ⟨y, hy, hd, hm, honly⟩⟩ := hrow
  · refine iff_of_false (fun heq => ?_) (hnone x hx)
    rcases hd with hd | hd
    · exact absurd (heq ▸ hd) (Nat.not_le_of_lt hid)
    · exact absurd (heq.symm.trans hd) (Nat.ne_of_lt hnever)
  · refine ⟨fun heq => h.distinct y hy x hx (hd.symm.trans heq) ▸ hm, fun hmx => hd.trans ?_⟩
    by_contra hne
    exact honly x hx (Ne.symm hne) hmx

/-- What a transaction sees of what is committed was committed before it began. -/
theorem Numbered.le_start (h : Numbered last active) (hx : x ∈ active) {stamp : Stamp}
    (hle : stamp ≤ last) (hsee : x.snapshot.sees stamp = true) : stamp ≤ x.start :=
  (sees_iff.mp hsee).resolve_right fun heq =>
    absurd ((show stamp = x.id from heq) ▸ hle) (Nat.not_le_of_lt (h.ids x hx).1)

/-- **A commit puts what the transaction has written** to a cell behind what is committed there. -/
theorem Numbered.commit_chain (hn : Numbered last active) (hx : x ∈ active) {column row : Nat}
    {under : Except StorageError Scalar} {chain : List Version}
    (h : CellOwned last active id column row under chain) (hle : last ≤ time)
    (hids : ∀ y ∈ active, time < y.id) (hordered : Ordered (committedUpTo last chain)) :
    (x.images id column row = [] ∧
      committedUpTo time (chain.map (Overlay.restamp x.id time)) = committedUpTo last chain) ∨
      ∃ values, values ≠ [] ∧ x.images id column row ≠ [] ∧
        (∀ v ∈ committedUpTo last chain, v.stamp ≤ x.start) ∧
        chain = committedUpTo last chain ++ versionsOf x.id values ∧
        committedUpTo time (chain.map (Overlay.restamp x.id time)) =
          committedUpTo last chain ++ versionsOf time values := by
  have hsettled : ∀ v ∈ committedUpTo last chain, v.stamp ≠ x.id := fun v hv =>
    Nat.ne_of_lt (Nat.lt_of_le_of_lt (mem_committedUpTo.mp hv).2 (hn.ids x hx).1)
  -- Nothing changes in a chain without a version of the transaction.
  have hsame : (∀ v ∈ chain, v.stamp ≠ x.id) →
      committedUpTo time (chain.map (Overlay.restamp x.id time)) = committedUpTo last chain := by
    intro hne
    rw [map_restamp_of_ne hne, h.committedUpTo_eq hle hids]
  rcases h.split (fun y hy => (hn.ids y hy).1) hordered with
    ⟨hchain, hnone⟩ | ⟨y, hy, values, hvalues, himages, hchain, hseen, honly⟩
  · refine Or.inl ⟨hnone x hx, hsame ?_⟩
    rw [hchain]
    exact hsettled
  · by_cases hyx : y.id = x.id
    · obtain rfl := hn.distinct y hy x hx hyx
      refine Or.inr ⟨values, hvalues, himages, hseen, hchain, ?_⟩
      conv_lhs => rw [hchain, List.map_append, map_restamp_of_ne hsettled, map_restamp_versionsOf]
      refine committedUpTo_of_le fun v hv => ?_
      rcases List.mem_append.mp hv with hv | hv
      · exact Nat.le_trans (mem_committedUpTo.mp hv).2 hle
      · obtain ⟨-, -, rfl⟩ := List.mem_map.mp hv
        exact Nat.le_refl _
    · refine Or.inl ⟨?_, hsame fun v hv => ?_⟩
      · by_contra himages'
        exact hyx (honly x hx himages').symm
      · rw [hchain] at hv
        rcases List.mem_append.mp hv with hv | hv
        · exact hsettled v hv
        · obtain ⟨-, -, rfl⟩ := List.mem_map.mp hv
          exact hyx

/-- **An operation commits nothing.** -/
theorem Touches.committedUpTo_eq (h : Touches x t t') (hid : last < x.id) (i r : Nat) :
    committedUpTo last (t'.chain i r) = committedUpTo last (t.chain i r) := by
  cases h with
  | same h => rw [h]
  | marks rows h hw => rw [h.chain_eq]
  | writes source j pairs targets before h =>
    rw [h.writes.chain_eq]
    split
    · exact committedUpTo_append_versionsOf hid _ _
    · rfl
  | erases h =>
    rw [h.chain_eq, committedUpTo, committedUpTo, Snapshot.versions, Snapshot.versions,
      List.filter_filter]
    refine List.filter_congr fun v _ => ?_
    by_cases hv : v.stamp = x.id
    · rw [hv, Snapshot.sees_upTo_of_lt hid, Bool.false_and]
    · rw [decide_eq_true hv, Bool.and_true]

/-- An operation takes no deletion back that is committed, and commits none. -/
theorem Touches.stamps (h : Touches x t t') (hid : last < x.id) (hlt : last < neverDeleted)
    {r : Nat} {st : RowStamps} (hst : t.stamps? r = some st) :
    ∃ st', t'.stamps? r = some st' ∧ st'.inserted = st.inserted ∧
      (st.deleted ≤ last → st'.deleted = st.deleted) ∧
      (st'.deleted ≤ last → st.deleted ≤ last) := by
  cases h with
  | same h => exact ⟨st, h ▸ hst, rfl, fun _ => rfl, id⟩
  | marks rows h hw =>
    rw [h.stamps_eq r, hst]
    split
    · rename_i hm
      obtain ⟨st', hst', -, hfree⟩ := (hw r hm).stamps
      obtain rfl := Option.some.inj (hst.symm.trans hst')
      refine ⟨_, rfl, rfl, fun hd => ?_, fun hd => absurd hd (Nat.not_le_of_lt hid)⟩
      rw [hfree] at hd
      exact absurd hlt (Nat.not_lt_of_le hd)
    · exact ⟨st, rfl, rfl, fun _ => rfl, id⟩
  | writes source j pairs targets before h =>
    rw [h.writes.stamps_eq r, hst]
    exact ⟨st, rfl, rfl, fun _ => rfl, id⟩
  | erases h =>
    rw [h.stamps_eq r, hst, Option.map_some]
    refine ⟨_, rfl, ?_, fun hd => ?_, fun hd => ?_⟩
    · rw [RowStamps.without]
      split <;> rfl
    · rw [RowStamps.without, if_neg (Nat.ne_of_lt (Nat.lt_of_le_of_lt hd hid))]
    · rw [RowStamps.without] at hd
      split at hd
      · exact absurd hlt (Nat.not_lt_of_le hd)
      · exact hd

theorem Guarded.of_sublist (h : Guarded last active t)
    (hchain : ∀ i r, (t'.chain i r).Sublist (t.chain i r))
    (hstamps : ∀ r st', t'.stamps? r = some st' → ∃ st, t.stamps? r = some st ∧
      (st'.deleted ≠ neverDeleted → st.deleted = st'.deleted))
    (hlast : last < neverDeleted) (hids : ∀ y ∈ active, y.id < neverDeleted) :
    Guarded last active t' where
  ordered i r := List.Pairwise.sublist ((hchain i r).filter _) (h.ordered i r)
  settled r st' hst' hd i v hv := by
    obtain ⟨st, hst, heq⟩ := hstamps r st' hst'
    have hd' := heq fun hn => absurd (hn ▸ hd) (Nat.not_le_of_lt hlast)
    exact h.settled r st hst (hd' ▸ hd) i v ((hchain i r).subset hv)
  held r st' hst' y hy hd i v hv := by
    obtain ⟨st, hst, heq⟩ := hstamps r st' hst'
    have hd' := heq fun hn => absurd (hd.symm.trans hn) (Nat.ne_of_lt (hids y hy))
    exact h.held r st hst y hy (hd'.trans hd) i v ((hchain i r).subset hv)

/-- **Operations keep the guard.** -/
theorem Guarded.touches (h : Guarded last active t) (hn : Numbered last active) (hx : x ∈ active)
    (ho : TableOwned last source safe active id t) (ht : Touches x t t') :
    Guarded last active t' := by
  obtain ⟨hid, hnever, hstart⟩ := hn.ids x hx
  have hordered : ∀ i r, Ordered (committedUpTo last (t'.chain i r)) := fun i r =>
    ht.committedUpTo_eq hid i r ▸ h.ordered i r
  cases ht with
  | same heq => exact heq ▸ h
  | marks rows hr hw =>
    refine ⟨hordered, fun r st' hst' hd i v hv => ?_, fun r st' hst' y hy hd i v hv => ?_⟩
    · rw [hr.stamps_eq r] at hst'
      rw [hr.chain_eq] at hv
      split at hst'
      · obtain ⟨st, -, rfl⟩ := Option.map_eq_some_iff.mp hst'
        exact absurd hd (Nat.not_le_of_lt hid)
      · exact h.settled r st' hst' hd i v hv
    · rw [hr.stamps_eq r] at hst'
      rw [hr.chain_eq] at hv
      split at hst'
      · -- The deleter has checked the newest version in every column.
        rename_i hrow
        obtain ⟨st, -, rfl⟩ := Option.map_eq_some_iff.mp hst'
        obtain rfl := hn.distinct x hx y hy hd
        refine (ho.cells i r).seen_of_newest (fun z hz => (hn.ids z hz).1)
          (fun z hz => hn.distinct z hz x hx) hid hstart (h.ordered i r) (fun w hlast => ?_) v hv
        cases hc : t.columns[i]? with
        | none =>
          rw [chain_of_none hc] at hlast
          cases hlast
        | some c =>
          rw [chain_of_some hc] at hlast
          exact (hw r hrow).newest c (List.mem_of_getElem? hc) w hlast
      · exact h.held r st' hst' y hy hd i v hv
  | writes src i pairs targets before hu =>
    have hfree : ∀ r st, t.stamps? r = some st → st.deleted ≠ neverDeleted →
        valuesFor r targets = [] := by
      intro r st hst hd
      refine valuesFor_eq_nil.mpr fun hr => ?_
      obtain ⟨p, hp, rfl⟩ := List.mem_map.mp hr
      obtain ⟨c, -, hw⟩ := hu.column
      obtain ⟨st', hst', -, hd'⟩ := (hw p hp).1.stamps
      obtain rfl := Option.some.inj (hst.symm.trans hst')
      exact hd hd'
    -- Rows that somebody has deleted are not written to.
    have hchain : ∀ j r st, t.stamps? r = some st → st.deleted ≠ neverDeleted →
        t'.chain j r = t.chain j r := by
      intro j r st hst hd
      rw [hu.writes.chain_eq j r, hfree r st hst hd]
      split <;> simp
    refine ⟨hordered, fun r st hst hd j v hv => ?_, fun r st hst y hy hd j v hv => ?_⟩
    · rw [hu.writes.stamps_eq r] at hst
      have hne : st.deleted ≠ neverDeleted := Nat.ne_of_lt
        (Nat.lt_of_le_of_lt hd (Nat.lt_trans hid hnever))
      rw [hchain j r st hst hne] at hv
      exact h.settled r st hst hd j v hv
    · rw [hu.writes.stamps_eq r] at hst
      have hne : st.deleted ≠ neverDeleted := hd ▸ Nat.ne_of_lt (hn.ids y hy).2.1
      rw [hchain j r st hst hne] at hv
      exact h.held r st hst y hy hd j v hv
  | erases he =>
    refine h.of_sublist (fun i r => ?_) (fun r st' hst' => ?_) (Nat.lt_trans hid hnever)
      fun y hy => (hn.ids y hy).2.1
    · rw [he.chain_eq]
      exact List.filter_sublist
    · rw [he.stamps_eq r] at hst'
      obtain ⟨st, hst, rfl⟩ := Option.map_eq_some_iff.mp hst'
      refine ⟨st, hst, fun hne => ?_⟩
      rw [RowStamps.without] at hne ⊢
      split
      · rename_i hd
        rw [if_pos hd] at hne
        exact absurd rfl hne
      · rfl

/-- The guard only asks for the numbers of transactions and for what they have seen. -/
theorem Guarded.of_active (h : Guarded last active t)
    (hall : ∀ y ∈ others, ∃ z ∈ active, z.id = y.id ∧ z.start = y.start) :
    Guarded last others t where
  ordered := h.ordered
  settled := h.settled
  held r st hst y hy hd i v hv := by
    obtain ⟨z, hz, hid, hstart⟩ := hall y hy
    have := h.held r st hst z hz (hd.trans hid.symm) i v hv
    rwa [Transaction.snapshot, hid, hstart] at this

/-- **The commits of others keep the guard,** as long as they are before the numbers of
transactions. -/
theorem Guarded.mono (h : Guarded last active t)
    (ho : TableOwned last source safe active id t) (hle : last ≤ time)
    (hids : ∀ y ∈ active, time < y.id) (hlt : time < neverDeleted) : Guarded time active t where
  ordered i r := by
    rw [(ho.cells i r).committedUpTo_eq hle hids]
    exact h.ordered i r
  settled r st hst hd i v hv := by
    have hrow := ho.rows r
    rw [hst] at hrow
    exact Nat.le_trans (h.settled r st hst (hrow.deleted_le hids hlt hd) i v hv) hle
  held := h.held

/-- **A commit keeps the guard.** -/
theorem Guarded.commits (h : Guarded last (x :: others) t) (hn : Numbered last (x :: others))
    (hne : ∀ y ∈ others, y.id ≠ x.id) (ho : TableOwned last source safe (x :: others) id t)
    (hts : t.Sound) (hc : Commits x time id t t') (hlast : last < time)
    (hids : ∀ y ∈ x :: others, time < y.id) : Guarded time others t' := by
  obtain ⟨hid, hnever, hstart⟩ := hn.ids x List.mem_cons_self
  have htime := hids x List.mem_cons_self
  -- What stands in a row that was there before, and that there is nothing in the new ones.
  have hstamps : ∀ r st', t'.stamps? r = some st' → (∃ st, t.stamps? r = some st ∧
      st' = st.commitDelete x.id time) ∨ (st'.deleted = neverDeleted ∧ ∀ i, t'.chain i r = []) := by
    intro r st' hst'
    rcases Nat.lt_or_ge r t.rows with hr | hr
    · rw [hc.stamps_old r hr] at hst'
      obtain ⟨st, hst, rfl⟩ := Option.map_eq_some_iff.mp hst'
      exact Or.inl ⟨st, hst, rfl⟩
    · refine Or.inr ⟨?_, fun i => by rw [hc.chain_eq, chain_of_le hts hr, List.map_nil]⟩
      rw [hc.stamps_new r hr] at hst'
      split at hst'
      · rw [← Option.some.inj hst']
      · cases hst'
  refine ⟨fun i r => ?_, fun r st' hst' hd i v hv => ?_, fun r st' hst' y hy hd i v hv => ?_⟩
  · rw [hc.chain_eq i r]
    rcases hn.commit_chain List.mem_cons_self (ho.cells i r) (Nat.le_of_lt hlast) hids
      (h.ordered i r) with ⟨-, heq⟩ | ⟨values, -, -, -, -, heq⟩ <;> rw [heq]
    · exact h.ordered i r
    · exact (h.ordered i r).append (fun v hv =>
        Nat.le_trans (mem_committedUpTo.mp hv).2 (Nat.le_of_lt hlast)) values
  · rcases hstamps r st' hst' with ⟨st, hst, rfl⟩ | ⟨-, hnil⟩
    · rw [hc.chain_eq i r] at hv
      obtain ⟨w, hw, rfl⟩ := List.mem_map.mp hv
      -- Whoever has deleted the row by now has seen all versions.
      have hle : w.stamp ≤ last ∨ w.stamp = x.id := by
        rw [RowStamps.commitDelete] at hd
        split at hd
        · rename_i hdx
          exact (sees_iff.mp (h.held r st hst x List.mem_cons_self hdx i w hw)).imp_left
            fun hle => Nat.le_trans hle hstart
        · have hrow := ho.rows r
          rw [hst] at hrow
          exact Or.inl (h.settled r st hst
            (hrow.deleted_le hids (Nat.lt_trans htime hnever) hd) i w hw)
      rw [Overlay.restamp]
      split
      · exact Nat.le_refl _
      · rename_i hx
        exact Nat.le_trans (hle.resolve_right hx) (Nat.le_of_lt hlast)
    · rw [hnil] at hv
      cases hv
  · rcases hstamps r st' hst' with ⟨st, hst, rfl⟩ | ⟨-, hnil⟩
    · rw [hc.chain_eq i r] at hv
      obtain ⟨w, hw, rfl⟩ := List.mem_map.mp hv
      obtain ⟨-, -, hystart⟩ := hn.ids y (List.mem_cons_of_mem _ hy)
      rw [RowStamps.commitDelete] at hd
      split at hd
      · exact absurd hd (Nat.ne_of_lt (hids y (List.mem_cons_of_mem _ hy)))
      · have hsee := h.held r st hst y (List.mem_cons_of_mem _ hy) hd i w hw
        rw [Overlay.restamp, if_neg]
        · exact hsee
        · intro heq
          rcases sees_iff.mp hsee with hle | hown
          · exact absurd (Nat.le_trans hle hystart) (heq ▸ Nat.not_le_of_lt hid)
          · exact hne y hy (hown.symm.trans heq)
    · rw [hnil] at hv
      cases hv

end Table
end Table

/-- No table is new. -/
theorem Catalog.Each.new {R : TableId → Table → Table → Prop} {c c' : Catalog}
    (h : Catalog.Each R c c') (id : Nat) (t' : Table) (ht' : c'.tables[id]? = some t') :
    (∃ t, c.tables[id]? = some t) ∨ t'.Sound ∧ t'.rows = 0 :=
  have ⟨t, ht, _⟩ := h.of_some ht'
  Or.inl ⟨t, ht⟩

/-! ## Runs -/

namespace System

/-- All tables of a system are guarded. -/
def Guarded (s : System) : Prop := ∀ (id : Nat) (t : Table),
  s.database.catalog.tables[id]? = some t →
    t.Guarded s.database.lastCommit (activeOf s.transactions)

theorem numbered {db : Database} {active : List Transaction} (h : db.Sound active) :
    Table.Numbered db.lastCommit active where
  ids y hy := ⟨Nat.lt_of_lt_of_le h.last_lt (h.ids y hy).1,
    Nat.lt_of_lt_of_le (h.ids y hy).2.1 h.next_le, (h.ids y hy).2.2⟩
  distinct _ hy _ hz heq := List.inj_on_of_nodup_map h.distinct hy hz heq

theorem mem_activeOf {x : Transaction} {xs : List Transaction} :
    x ∈ activeOf xs ↔ x ∈ xs ∧ x.state = .active := by
  rw [activeOf, List.mem_filter, decide_eq_true_iff]

/-- What a step does to a table, and who commits in it. -/
inductive Moves (s s' : System) (who : Option Transaction) (id : TableId) (t t' : Table) : Prop
  /-- Nothing but that it may be dropped. -/
  | stays (hwho : who = none) (h : t' = { t with dropped := t'.dropped })
    (hlast : s'.database.lastCommit = s.database.lastCommit ∨
      s'.database.lastCommit = s.database.lastCommit + 1)
  | touched (x : Transaction) (hwho : who = none) (hx : x ∈ activeOf s.transactions)
    (h : Table.Touches x t t') (hlast : s'.database.lastCommit = s.database.lastCommit)
  | commits (x : Transaction) (hwho : who = some x) (hx : x ∈ activeOf s.transactions)
    (h : Table.Commits x (s.database.lastCommit + 1) id t t')
    (hlast : s'.database.lastCommit = s.database.lastCommit + 1)

/-- What a step does to the tables and to the list of those who are active. -/
structure Progress (s s' : System) (who : Option Transaction) : Prop where
  tables : ∀ (id : Nat) (t : Table), s.database.catalog.tables[id]? = some t →
    ∃ t', s'.database.catalog.tables[id]? = some t' ∧ Moves s s' who id t t'
  new : ∀ (id : Nat) (t' : Table), s'.database.catalog.tables[id]? = some t' →
    (∃ t, s.database.catalog.tables[id]? = some t) ∨ t'.Sound ∧ t'.rows = 0
  /-- Whoever is active was so before, or has just begun. -/
  active : ∀ y ∈ activeOf s'.transactions,
    (∃ z ∈ activeOf s.transactions, z.id = y.id ∧ z.start = y.start ∧ who ≠ some z) ∨
      y.undo = []

/-- **A commit** moves the tables on. -/
theorem progress_commits {s : System} {k : Nat} {x x' : Session} (hx : s.session? k = some x)
    (hs : x.database.Sound (x.transaction :: activeOf (s.others k))) (hw : x.transaction.Writing)
    (h : Session.Commits x x' (s.database.lastCommit + 1)) :
    Progress s (s.put k x') (some x.transaction) := by
  obtain ⟨hdb, htr⟩ := session?_eq_some.mp hx
  obtain ⟨decoded, b, c', -, hc, hdb'⟩ := h.database_eq
  rw [hdb] at hc
  have hcat : (s.put k x').database.catalog = c' := by
    change x'.database.catalog = c'
    rw [hdb']
    rfl
  have hlast : x'.database.lastCommit = s.database.lastCommit + 1 := by rw [hdb']; rfl
  refine ⟨fun id t ht => ?_, ?_, fun y hy => ?_⟩
  · obtain ⟨t', ht', hcommits⟩ := hc.tables id t ht
    rw [hcat]
    exact ⟨t', ht', .commits x.transaction rfl
      (mem_activeOf.mpr ⟨List.mem_of_getElem? htr, hw.active⟩) hcommits hlast⟩
  · rw [hcat]
    exact hc.new
  · have hset : (s.put k x').transactions.Perm (x'.transaction :: s.others k) :=
      List.set_perm_cons_eraseIdx (List.getElem?_eq_some_iff.mp htr).1 x'.transaction
    have hended : x'.transaction.state ≠ .active := by
      rw [h.transaction_eq]
      exact nofun
    have hy' : y ∈ activeOf (s.others k) := by
      rw [← activeOf_cons_of_ended hended]
      exact (hset.filter _).mem_iff.mp hy
    have hperm : (activeOf s.transactions).Perm (x.transaction :: activeOf (s.others k)) := by
      rw [← activeOf_cons_of_active hw.active]
      exact (perm_others htr).filter _
    exact Or.inl ⟨y, hperm.mem_iff.mpr (List.mem_cons_of_mem _ hy'), rfl, rfl, fun heq =>
      hs.others_ne y hy' (congrArg Transaction.id (Option.some.inj heq)).symm⟩

/-- **A table is created** behind the others. -/
theorem created_tables {s : System} (hs : s.Sound) {name : String}
    {definitions : List ColumnDefinition} {id : TableId} {db' : Database}
    (h : s.database.createTable name definitions = .ok (id, db')) :
    (∀ (j : Nat) (t : Table), s.database.catalog.tables[j]? = some t →
        db'.catalog.tables[j]? = some t) ∧
      (∀ (j : Nat) (t' : Table), db'.catalog.tables[j]? = some t' →
        s.database.catalog.tables[j]? = some t' ∨
          t'.Sound ∧ t'.rows = 0 ∧ t'.definitions ≠ []) ∧
      db'.lastCommit = s.database.lastCommit + 1 := by
  obtain ⟨u, b, c', hnew, -, hinsert, hdb⟩ := Database.createTable_ok h
  obtain ⟨hsound, -, -, -, -, hrows, -⟩ := Table.new_ok hs.capacity hnew
  obtain ⟨-, -, rfl⟩ := Catalog.insert_ok hinsert
  have hget (j : Nat) : db'.catalog.tables[j]? =
      if j = s.database.catalog.tables.size then some u else s.database.catalog.tables[j]? := by
    rw [hdb]
    exact Catalog.getElem?_push s.database.catalog u _ j
  refine ⟨fun j t ht => ?_, fun j t ht => ?_, by rw [hdb]; rfl⟩
  · rw [hget, if_neg (Nat.ne_of_lt (Catalog.lt_of_some ht))]
    exact ht
  · rw [hget] at ht
    split at ht
    · obtain rfl := Option.some.inj ht
      exact Or.inr ⟨hsound, hrows, Table.definitions_ne_nil hnew⟩
    · exact Or.inl ht

/-- **A table that is dropped** is only marked. -/
theorem dropped_tables {s : System} (hs : s.Sound) {name : String} {db' : Database}
    (h : s.database.dropTable name = .ok db') :
    (∀ (j : Nat) (t : Table), s.database.catalog.tables[j]? = some t →
        ∃ t', db'.catalog.tables[j]? = some t' ∧ t' = { t with dropped := t'.dropped }) ∧
      (∀ (j : Nat) (t' : Table), db'.catalog.tables[j]? = some t' →
        ∃ t, s.database.catalog.tables[j]? = some t) ∧
      db'.lastCommit = s.database.lastCommit + 1 := by
  obtain ⟨id, b, c', -, hremove, hdb⟩ := Database.dropTable_ok h
  obtain ⟨hget, rfl⟩ := Catalog.remove_ok hremove
  obtain ⟨u, hu, -, -⟩ := hs.database.catalog.named name id (Catalog.mem_of_get hget)
  have hget (j : Nat) : db'.catalog.tables[j]? =
      if j = id then some { u with dropped := true } else s.database.catalog.tables[j]? := by
    have := Catalog.tables_setTable hu { u with dropped := true } j
    rw [hdb, ← Catalog.table_of_some hu] at *
    exact this
  refine ⟨fun j t ht => ?_, fun j t ht => ?_, by rw [hdb]; rfl⟩
  · by_cases hj : j = id
    · subst hj
      obtain rfl := Option.some.inj (hu.symm.trans ht)
      exact ⟨_, (hget j).trans (if_pos rfl), rfl⟩
    · exact ⟨t, ((hget j).trans (if_neg hj)).trans ht, rfl⟩
  · rw [hget] at ht
    split at ht
    · rename_i hj
      exact ⟨u, hj ▸ hu⟩
    · exact ⟨t, ht⟩

/-- **Every step** moves the tables on. -/
theorem Deed.progress {s s' : System} {a : Action} {o : Outcome} (h : Deed s s' a o) (hs : s.Sound) :
    ∃ who, Progress s s' who ∧ ∀ x, who = some x → ∃ k, a = .commit k ∧
      s.transactions[k]? = some x ∧ o = .committed (s.database.lastCommit + 1) := by
  have hstay {r : System} (hcat : r.database.catalog = s.database.catalog)
      (hlast : r.database.lastCommit = s.database.lastCommit) :
      (∀ (id : Nat) (t : Table), s.database.catalog.tables[id]? = some t →
        ∃ t', r.database.catalog.tables[id]? = some t' ∧ Moves s r none id t t') ∧
      ∀ (id : Nat) (t' : Table), r.database.catalog.tables[id]? = some t' →
        (∃ t, s.database.catalog.tables[id]? = some t) ∨ t'.Sound ∧ t'.rows = 0 := by
    rw [hcat]
    exact ⟨fun id t ht => ⟨t, ht, .stays rfl rfl (Or.inl hlast)⟩, fun id t ht => Or.inl ⟨t, ht⟩⟩
  have hsame : ∀ y ∈ activeOf s.transactions, (∃ z ∈ activeOf s.transactions,
      z.id = y.id ∧ z.start = y.start ∧ (none : Option Transaction) ≠ some z) ∨
        y.undo = [] :=
    fun y hy => Or.inl ⟨y, hy, rfl, rfl, nofun⟩
  cases h with
  | acts k x x' ha hx hm hacts _ hput =>
    subst hput
    obtain ⟨hdb, htr⟩ := session?_eq_some.mp hx
    have hmem := List.mem_of_getElem? htr
    have hlast : x'.database.lastCommit = s.database.lastCommit := by
      rw [hm.silent.rest_eq, hdb]
    have hactive : ∀ y ∈ activeOf (s.put k x').transactions, (∃ z ∈ activeOf s.transactions,
        z.id = y.id ∧ z.start = y.start ∧ (none : Option Transaction) ≠ some z) ∨
          y.undo = [] := by
      intro y hy
      obtain ⟨hy, hstate⟩ := mem_activeOf.mp hy
      rcases List.mem_or_eq_of_mem_set hy with hy | rfl
      · exact hsame y (mem_activeOf.mpr ⟨hy, hstate⟩)
      · exact Or.inl ⟨x.transaction, mem_activeOf.mpr ⟨hmem, hacts.state hstate⟩, hm.id_eq.symm,
          hm.start_eq.symm, nofun⟩
    refine ⟨none, ?_, nofun⟩
    by_cases hx' : x.transaction.state = .active
    · have htouch := hacts.touches
      rw [hdb] at htouch
      refine ⟨fun id t ht => ?_, htouch.new, hactive⟩
      obtain ⟨t', ht', h⟩ := htouch.tables id t ht
      exact ⟨t', ht', .touched x.transaction rfl (mem_activeOf.mpr ⟨hmem, hx'⟩) h hlast⟩
    · obtain ⟨htables, hnew⟩ := hstay (r := s.put k x')
        ((hacts.catalog_of_ended hx').trans (by rw [hdb])) hlast
      exact ⟨htables, hnew, hactive⟩
  | begun h =>
    subst h
    obtain ⟨htables, hnew⟩ := hstay (r := ⟨s.database.newTransaction.2,
      s.transactions ++ [s.database.newTransaction.1]⟩) rfl rfl
    refine ⟨none, ⟨htables, hnew, fun y hy => ?_⟩, nofun⟩
    obtain ⟨hy, hstate⟩ := mem_activeOf.mp hy
    rcases List.mem_append.mp hy with hy | hy
    · exact hsame y (mem_activeOf.mpr ⟨hy, hstate⟩)
    · obtain rfl := List.mem_singleton.mp hy
      exact Or.inr rfl
  | committed k x x' hx hsx hw h hput =>
    subst hput
    refine ⟨some x.transaction, progress_commits hx hsx hw h, fun y hy => ?_⟩
    obtain rfl := Option.some.inj hy
    exact ⟨k, rfl, (session?_eq_some.mp hx).2, rfl⟩
  | created name definitions id h hx =>
    obtain ⟨hkept, hnew, hlast⟩ := created_tables hs h
    refine ⟨none, ⟨fun j t ht => ⟨t, hkept j t ht, .stays rfl rfl (Or.inr hlast)⟩, fun j t ht => ?_,
      hx ▸ hsame⟩, nofun⟩
    exact (hnew j t ht).imp (fun hold => ⟨t, hold⟩) fun hfresh => ⟨hfresh.1, hfresh.2.1⟩
  | dropped name h hx =>
    obtain ⟨htables, hold, hlast⟩ := dropped_tables hs h
    refine ⟨none, ⟨fun j t ht => ?_, fun j t ht => Or.inl (hold j t ht), hx ▸ hsame⟩, nofun⟩
    obtain ⟨t', ht', hsame'⟩ := htables j t ht
    exact ⟨t', ht', .stays rfl hsame' (Or.inr hlast)⟩
  | refused a e ha h =>
    subst h
    obtain ⟨htables, hnew⟩ := hstay (r := s') rfl rfl
    exact ⟨none, ⟨htables, hnew, hsame⟩, nofun⟩

/-- **Every step keeps the guard.** -/
theorem Progress.guarded {s s' : System} {who : Option Transaction} (h : Progress s s' who)
    (hs : s.Sound) (hs' : s'.Sound) (hr : s.Room) (hg : s.Guarded) : s'.Guarded := by
  have hn := numbered hs.database
  have htime : ∀ y ∈ activeOf s.transactions, s.database.lastCommit + 1 < y.id := fun y hy =>
    Nat.lt_of_lt_of_le hr.commits (hs.database.ids y hy).1
  intro id t' ht'
  rcases h.new id t' ht' with ⟨t, ht⟩ | ⟨hsound, hrows⟩
  · have hown := hs.database.owned id t ht
    obtain ⟨t'', ht'', hmoves⟩ := h.tables id t ht
    obtain rfl := Option.some.inj (ht'.symm.trans ht'')
    -- The guard for those who were active before and have not committed by now.
    obtain ⟨active, hactive, hg'⟩ : ∃ active : List Transaction,
        (∀ z ∈ activeOf s.transactions, who ≠ some z → z ∈ active) ∧
          t'.Guarded s'.database.lastCommit active := by
      cases hmoves with
      | stays hwho h hlast =>
        refine ⟨_, fun z hz _ => hz, ?_⟩
        have hold : t.Guarded s'.database.lastCommit (activeOf s.transactions) := by
          rcases hlast with hlast | hlast <;> rw [hlast]
          · exact hg id t ht
          · exact (hg id t ht).mono hown (Nat.le_succ _) htime (Nat.lt_trans hr.commits (by decide))
        rw [h]
        exact ⟨hold.ordered, hold.settled, hold.held⟩
      | touched x hwho hx h hlast =>
        rw [hlast]
        exact ⟨_, fun z hz _ => hz, (hg id t ht).touches hn hx hown h⟩
      | commits x hwho hx h hlast =>
        obtain ⟨k, hk⟩ := List.mem_iff_getElem?.mp (mem_activeOf.mp hx).1
        have hperm : (activeOf s.transactions).Perm (x :: activeOf (s.others k)) := by
          rw [← activeOf_cons_of_active (mem_activeOf.mp hx).2]
          exact (perm_others hk).filter _
        have hsx := hs.database.perm hperm
        refine ⟨activeOf (s.others k), fun z hz hne => ?_, ?_⟩
        · rcases List.mem_cons.mp (hperm.mem_iff.mp hz) with rfl | hz
          · exact absurd hwho hne
          · exact hz
        · rw [hlast]
          exact ((hg id t ht).of_active fun y hy => ⟨y, hperm.mem_iff.mpr hy, rfl, rfl⟩).commits
            (numbered hsx) hsx.others_ne (hsx.owned id t ht) (hs.database.catalog.tables id t ht).1 h
            (Nat.lt_succ_self _) fun y hy => htime y (hperm.mem_iff.mpr hy)
    refine ⟨hg'.ordered, hg'.settled, fun r st hst y hy hd i v hv => ?_⟩
    rcases h.active y hy with ⟨z, hz, hid, hstart, hne⟩ | hundo
    · have := hg'.held r st hst z (hactive z hz hne) (hd.trans hid.symm) i v hv
      rwa [Transaction.snapshot, hid, hstart] at this
    · -- Whoever has just begun has not deleted anything.
      have hrow := (hs'.database.owned id t' ht').rows r
      rw [hst] at hrow
      have hnot : r ∉ y.deletedRows id := by simp [Transaction.deletedRows, hundo]
      exact absurd (((numbered hs'.database).deleted_eq_iff hy hrow).mp hd) hnot
  · have hnil : ∀ i r, t'.chain i r = [] := fun i r =>
      Table.chain_of_le hsound (hrows ▸ Nat.zero_le r) i
    refine ⟨fun i r => ?_, fun r st _ _ i v hv => ?_, fun r st _ y _ _ i v hv => ?_⟩
    · rw [hnil]
      exact List.Pairwise.nil
    · rw [hnil] at hv
      cases hv
    · rw [hnil] at hv
      cases hv

/-- **What every step keeps, a run keeps,** with the guard of the tables. -/
theorem Run.guarded_keeps {P : List (Action × Outcome) → System → Prop} {start s : System}
    {trace : List (Action × Outcome)} (hrun : Run start trace s) (ho : Orderly trace)
    (h : start.Sound) (hg : start.Guarded) {n : Nat} (hn : start.Counts (trace.length + n))
    (hP : P [] start)
    (hstep : ∀ trace s s' a o, Run start trace s → s.Sound → s.Room → s.Guarded →
      Deed s s' a o → s.step a = some (o, s') → s'.Sound → P trace s → P (trace ++ [(a, o)]) s') :
    s.Sound ∧ s.Counts n ∧ s.Guarded ∧ P trace s := by
  induction hrun generalizing n with
  | nil => exact ⟨h, by simpa using hn, hg, hP⟩
  | @snoc trace s s' a o hrun hs ih =>
    have hlen : trace.length + (n + 1) = (trace ++ [(a, o)]).length + n := by
      rw [List.length_append, List.length_singleton]
      omega
    obtain ⟨hsound, hcounts, hguarded, hPs⟩ :=
      ih (fun p hp => ho p (List.mem_append_left _ hp)) (hlen ▸ hn)
    obtain ⟨htyped, hlost⟩ := ho (a, o) (List.mem_append_right _ List.mem_cons_self)
    obtain ⟨hsound', heffect⟩ := step_cases hsound hcounts.room htyped hs hlost
    have hdeed := step_deed hsound hcounts.room htyped hs hlost
    obtain ⟨who, hprogress, -⟩ := hdeed.progress hsound
    exact ⟨hsound', hcounts.effect heffect,
      hprogress.guarded hsound hsound' hcounts.room hguarded,
      hstep trace s s' a o hrun hsound hcounts.room hguarded hdeed hs hsound' hPs⟩

end System
end ColumnStore
