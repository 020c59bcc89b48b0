/-
# Tables that show what is committed

A table rebuilt from the log mirrors the one in memory: it has the same rows, and in them what was
committed, at every time (`Table.Mirrors`).  What an active transaction does leaves that as it is,
and a commit does the same to both when the changes in its group are applied to the mirror before
the rows are (`Mirrors.commit`).
-/

import ColumnStore.Proofs.Database.System
import Mathlib.Data.List.Find

namespace ColumnStore

/-- What is committed up to a time. -/
def Snapshot.upTo (time : Stamp) : Snapshot := ⟨time, 0⟩

theorem Snapshot.sees_upTo {time stamp : Stamp} (h : stamp ≠ 0) :
    (Snapshot.upTo time).sees stamp = decide (stamp ≤ time) := by
  have hne : (stamp == 0) = false := beq_eq_false_iff_ne.mpr h
  exact congrArg _ hne |>.trans (Bool.or_false _)

theorem Snapshot.sees_upTo_of_le {time stamp : Stamp} (h : stamp ≤ time) :
    (Snapshot.upTo time).sees stamp = true := by
  simp [Snapshot.upTo, Snapshot.sees, h]

theorem Snapshot.sees_upTo_of_lt {time stamp : Stamp} (h : time < stamp) :
    (Snapshot.upTo time).sees stamp = false := by
  rw [Snapshot.sees_upTo (Nat.ne_of_gt (Nat.lt_of_le_of_lt (Nat.zero_le _) h)),
    decide_eq_false (Nat.not_le_of_lt h)]

namespace Table

/-- A table that shows what was committed in another one up to a time, and nothing else. -/
structure Mirrors (last : Stamp) (t u : Table) : Prop where
  sound : u.Sound
  name_eq : u.name = t.name
  definitions_eq : u.definitions = t.definitions
  policy_eq : u.policy = t.policy
  rows_eq : u.rows = t.rows
  bare_eq : u.columns.map Column.bare = t.columns.map Column.bare
  stamps_eq : ∀ r, u.stamps? r = (t.stamps? r).bind (Snapshot.upTo last).stamps?
  seen_eq : ∀ time ≤ last, ∀ i r,
    seen? (u.chain i r) (Snapshot.upTo time) = seen? (t.chain i r) (Snapshot.upTo time)
  settled : ∀ i r, ∀ v ∈ u.chain i r, v.stamp ≤ last

/-- A table without rows mirrors itself. -/
theorem Mirrors.refl {last : Stamp} {t : Table} (h : t.Sound) (hrows : t.rows = 0) :
    Mirrors last t t := by
  have hchain : ∀ i r, t.chain i r = [] := fun i r => chain_of_le h (hrows ▸ Nat.zero_le r) i
  refine ⟨h, rfl, rfl, rfl, rfl, rfl, fun r => ?_, fun _ _ _ _ => rfl, fun i r v hv => ?_⟩
  · rw [stamps?_eq_none.mpr (hrows ▸ Nat.zero_le r)]
    rfl
  · rw [hchain] at hv
    cases hv

/-- **What nobody else sees does not matter to a mirror.** -/
theorem Mirrors.quiet {last : Stamp} {t t' u : Table} (h : Mirrors last t u) (hk : Keeps t t')
    (hl : ∀ time ≤ last, Looks (Snapshot.upTo time) t t') : Mirrors last t' u where
  sound := h.sound
  name_eq := h.name_eq.trans hk.name_eq.symm
  definitions_eq := h.definitions_eq.trans hk.definitions_eq.symm
  policy_eq := h.policy_eq.trans hk.policy_eq.symm
  rows_eq := h.rows_eq.trans hk.rows_eq.symm
  bare_eq := h.bare_eq.trans hk.bare_eq.symm
  stamps_eq r := (h.stamps_eq r).trans ((hl last (Nat.le_refl _)).stamps_eq r).symm
  seen_eq time ht i r := by
    rw [h.seen_eq time ht i r, ← Snapshot.seen?_versions, ← (hl time ht).versions_eq i r,
      Snapshot.seen?_versions]
  settled := h.settled

/-- What the changes in the group of a commit do to a mirror. -/
structure Rewrites (time : Stamp) (value : Nat → Nat → Scalar) (changes : List UndoRecord)
    (table : TableId) (u u' : Table) : Prop where
  keeps : Keeps u u'
  stamps_eq : ∀ r, u'.stamps? r = if r ∈ changes.flatMap (·.deletedRows table) then
      (u.stamps? r).map (RowStamps.withDeleted time) else u.stamps? r
  chain_eq : ∀ i r, ∃ n, u'.chain i r = u.chain i r ++ List.replicate n ⟨time, value i r⟩ ∧
    (n = 0 ↔ r ∉ updatedRows table i changes)

theorem Rewrites.refl {u : Table} (h : u.Sound) (time : Stamp) (value : Nat → Nat → Scalar)
    (table : TableId) : Rewrites time value [] table u u :=
  ⟨Keeps.refl h, fun _ => by simp, fun _ _ => ⟨0, by simp, by simp [updatedRows]⟩⟩

theorem Rewrites.cons {time : Stamp} {value : Nat → Nat → Scalar} {change : UndoRecord}
    {changes : List UndoRecord} {table : TableId} {u u' u'' : Table}
    (h : Rewrites time value [change] table u u') (h' : Rewrites time value changes table u' u'') :
    Rewrites time value (change :: changes) table u u'' := by
  refine ⟨h.keeps.trans h'.keeps, fun r => ?_, fun i r => ?_⟩
  · rw [h'.stamps_eq r, h.stamps_eq r]
    simp only [List.flatMap_cons, List.flatMap_nil, List.append_nil, List.mem_append]
    by_cases h₁ : r ∈ change.deletedRows table <;>
      by_cases h₂ : r ∈ changes.flatMap (·.deletedRows table) <;>
      simp only [h₁, h₂, if_true, if_false, or_self, or_true, true_or]
    cases u.stamps? r <;> rfl
  · obtain ⟨n, hn, hiff⟩ := h.chain_eq i r
    obtain ⟨m, hm, hiff'⟩ := h'.chain_eq i r
    refine ⟨n + m, by rw [hm, hn, List.append_assoc, List.replicate_append_replicate], ?_⟩
    rw [Nat.add_eq_zero_iff, hiff, hiff']
    simp [updatedRows, not_or]

/-- Rows that are added to a mirror, if there are any. -/
structure Extends (time : Stamp) (data : List Row) (u u' : Table) : Prop where
  sound : u'.Sound
  name_eq : u'.name = u.name
  definitions_eq : u'.definitions = u.definitions
  policy_eq : u'.policy = u.policy
  dropped_eq : u'.dropped = u.dropped
  rows_eq : u'.rows = u.rows + data.length
  stamps_old : ∀ r, r < u.rows → u'.stamps? r = u.stamps? r
  stamps_new : ∀ r, u.rows ≤ r → u'.stamps? r =
    if r < u.rows + data.length then some { inserted := time } else none
  chain_eq : ∀ i r, u'.chain i r = u.chain i r

theorem Extends.nil {u : Table} (h : u.Sound) (time : Stamp) : Extends time [] u u :=
  ⟨h, rfl, rfl, rfl, rfl, rfl, fun _ _ => rfl, fun r hr => by
    rw [stamps?_eq_none.mpr hr, if_neg (by simpa using hr)], fun _ _ => rfl⟩

theorem Adds.extends {time : Stamp} {data : List Row} {u u' : Table} (h : Adds u u' time data) :
    Extends time data u u' :=
  ⟨h.sound, h.name_eq, h.definitions_eq, h.policy_eq, h.dropped_eq, h.rows_eq,
    fun _ hr => h.stamps_old hr, fun _ hr => h.stamps_new hr, h.chain_eq⟩

/-- **The rows of a transaction can be added to a mirror** as they were to the table. -/
theorem Commits.extend {x : Transaction} {time : Stamp} {table : TableId} {t t' u : Table}
    (hc : Commits x time table t t') (hts : t.Sound) (hu : u.Sound)
    (hd : u.definitions = t.definitions)
    (hb : u.columns.map Column.bare = t.columns.map Column.bare) :
    ∃ u', Extends time (x.rowsOf table) u u' ∧
      u'.columns.map Column.bare = t'.columns.map Column.bare ∧
      ((x.rowsOf table = [] ∧ u' = u) ∨
        (x.rowsOf table ≠ [] ∧ ∃ range, u.appendRows (x.rowsOf table) time = (.ok range, u'))) := by
  rcases hc.added with ⟨hnil, hbare⟩ | ⟨hne, vectors, slots, range, t₁, happend, hhold, htypes,
    hfits, hbare⟩
  · refine ⟨u, ?_, hb.trans hbare.symm, Or.inl ⟨hnil, rfl⟩⟩
    rw [hnil]
    exact Extends.nil hu time
  · obtain ⟨range', u', he, hadds, hbare'⟩ :=
      appendRows_congr hts hu hd hb htypes hhold hfits happend
    exact ⟨u', hadds.extends, hbare'.trans hbare.symm, Or.inr ⟨hne, range', he⟩⟩

end Table

/-! ## Stamps that are there -/

section

variable {last : Stamp} {active : List Transaction} {table : TableId}

theorem RowOwned.deleted_cases {row : Nat} {st : RowStamps}
    (h : RowOwned last active table row (some st)) :
    st.deleted ≤ last ∨ st.deleted = neverDeleted ∨ ∃ y ∈ active, st.deleted = y.id := by
  obtain ⟨-, ⟨hd, -⟩ | ⟨y, hy, hd, -⟩⟩ := h
  · exact hd.imp_right Or.inl
  · exact Or.inr (Or.inr ⟨y, hy, hd⟩)

/-- **Between two commits nothing is seen of the stamps of a row that was not seen before.** -/
theorem RowOwned.stamps_succ {row : Nat} {st : RowStamps}
    (h : RowOwned last active table row (some st)) (hids : ∀ y ∈ active, last + 1 < y.id)
    (hlt : last + 1 < neverDeleted) :
    (Snapshot.upTo (last + 1)).stamps? st = (Snapshot.upTo last).stamps? st := by
  have hunseen : ∀ {stamp : Stamp}, last + 1 < stamp →
      (Snapshot.upTo (last + 1)).sees stamp = (Snapshot.upTo last).sees stamp := by
    intro stamp hs
    rw [Snapshot.sees_upTo_of_lt hs, Snapshot.sees_upTo_of_lt (Nat.lt_of_succ_lt hs)]
  have hseen : ∀ {stamp : Stamp}, stamp ≤ last →
      (Snapshot.upTo (last + 1)).sees stamp = (Snapshot.upTo last).sees stamp := by
    intro stamp hs
    rw [Snapshot.sees_upTo_of_le hs, Snapshot.sees_upTo_of_le (Nat.le_succ_of_le hs)]
  have hdel : (Snapshot.upTo (last + 1)).sees st.deleted =
      (Snapshot.upTo last).sees st.deleted := by
    rcases h.deleted_cases with hle | heq | ⟨y, hy, heq⟩
    · exact hseen hle
    · rw [heq]
      exact hunseen hlt
    · rw [heq]
      exact hunseen (hids y hy)
  rw [Snapshot.stamps?, Snapshot.stamps?, hseen h.1, hdel]

theorem CellOwned.stamp_cases {column row : Nat} {under : Except StorageError Scalar}
    {chain : List Version} (h : CellOwned last active table column row under chain) :
    ∀ v ∈ chain, v.stamp ≤ last ∨ ∃ y ∈ active, v.stamp = y.id := by
  intro v hv
  rcases h with ⟨hs, -⟩ | ⟨y, settled, values, hy⟩
  · exact Or.inl (hs v hv)
  · rw [hy.chain_eq] at hv
    rcases List.mem_append.mp hv with hv | hv
    · exact Or.inl (hy.settled_le v hv)
    · obtain ⟨-, -, rfl⟩ := List.mem_map.mp hv
      exact Or.inr ⟨y, hy.mem, rfl⟩

/-- Snapshots that see the same of a chain read the same. -/
theorem seen?_congr {chain : List Version} {s s' : Snapshot}
    (h : ∀ v ∈ chain, s'.sees v.stamp = s.sees v.stamp) : seen? chain s' = seen? chain s := by
  rw [seen?, seen?, List.find?_congr fun v hv => h v (List.mem_reverse.mp hv)]

/-- **Between two commits nothing is seen of a chain that was not seen before.** -/
theorem CellOwned.seen_succ {column row : Nat} {under : Except StorageError Scalar}
    {chain : List Version} (h : CellOwned last active table column row under chain)
    (hids : ∀ y ∈ active, last + 1 < y.id) :
    seen? chain (Snapshot.upTo (last + 1)) = seen? chain (Snapshot.upTo last) := by
  refine seen?_congr fun v hv => ?_
  rcases h.stamp_cases v hv with hle | ⟨y, hy, heq⟩
  · rw [Snapshot.sees_upTo_of_le hle, Snapshot.sees_upTo_of_le (Nat.le_succ_of_le hle)]
  · rw [heq, Snapshot.sees_upTo_of_lt (hids y hy),
      Snapshot.sees_upTo_of_lt (Nat.lt_of_succ_lt (hids y hy))]

end

namespace Table

variable {last : Stamp} {x : Transaction} {others : List Transaction} {table : TableId}
  {source : Source} {safe : StoredValues → Prop} {t t' u u₁ u' : Table}

/-- The stamps of a row after a commit, in the table and in its mirror. -/
theorem Mirrors.stamps_commit (h : Mirrors last t u)
    (hc : Commits x (last + 1) table t t')
    (hown : TableOwned last source safe (x :: others) table t) (ho : ∀ y ∈ others, y.id ≠ x.id)
    (hids : ∀ y ∈ x :: others, last + 1 < y.id ∧ y.id < neverDeleted)
    (hlt : last + 1 < neverDeleted)
    {value : Nat → Nat → Scalar} (hr : Rewrites (last + 1) value x.undo table u u₁)
    (he : Extends (last + 1) (x.rowsOf table) u₁ u') (r : Nat) :
    u'.stamps? r = (t'.stamps? r).bind (Snapshot.upTo (last + 1)).stamps? := by
  have hxid := hids x List.mem_cons_self
  rcases Nat.lt_or_ge r t.rows with hrow | hrow
  · have hrow₁ : r < u₁.rows := by rwa [hr.keeps.rows_eq, h.rows_eq]
    rw [he.stamps_old r hrow₁, hr.stamps_eq r, h.stamps_eq r, hc.stamps_old r hrow]
    obtain ⟨st, hst⟩ := stamps?_of_lt hrow
    have howned := hown.rows r
    rw [hst] at howned ⊢
    rw [Option.map_some, Option.bind_some, Option.bind_some]
    change (if r ∈ x.deletedRows table then _ else _) = _
    by_cases hdel : r ∈ x.deletedRows table
    · obtain ⟨hd, -⟩ := howned.held ho hdel
      have hins : (Snapshot.upTo last).sees st.inserted = true := Snapshot.sees_upTo_of_le howned.1
      have hins' : (Snapshot.upTo (last + 1)).sees st.inserted = true :=
        Snapshot.sees_upTo_of_le (Nat.le_succ_of_le howned.1)
      have hnow : (Snapshot.upTo (last + 1)).sees (last + 1) = true :=
        Snapshot.sees_upTo_of_le (Nat.le_refl _)
      rw [if_pos hdel, RowStamps.commitDelete, if_pos hd, Snapshot.stamps?, if_pos hins,
        Snapshot.stamps?, RowStamps.inserted_withDeleted, if_pos hins',
        RowStamps.deleted_withDeleted, if_pos hnow]
      split <;> rfl
    · have hne := howned.deleted_ne ho (Nat.lt_of_succ_lt hxid.1) hxid.2 hdel
      rw [if_neg hdel, RowStamps.commitDelete, if_neg hne,
        howned.stamps_succ (fun y hy => (hids y hy).1) hlt]
  · have hrow₁ : u₁.rows ≤ r := by rwa [hr.keeps.rows_eq, h.rows_eq]
    rw [he.stamps_new r hrow₁, hc.stamps_new r hrow, hr.keeps.rows_eq, h.rows_eq]
    split
    · have hsees : (Snapshot.upTo (last + 1)).sees (last + 1) = true :=
        Snapshot.sees_upTo_of_le (Nat.le_refl _)
      have hnever : (Snapshot.upTo (last + 1)).sees neverDeleted = false :=
        Snapshot.sees_upTo_of_lt hlt
      simp only [Option.bind_some, Snapshot.stamps?, hsees, if_true, hnever, Bool.false_eq_true,
        if_false, RowStamps.withDeleted]
    · rfl

theorem images_eq_nil {x : Transaction} {table : TableId} {i r : Nat} :
    x.images table i r = [] ↔ r ∉ updatedRows table i x.undo := valuesFor_eq_nil

/-- Chains that end before a time are not seen differently then. -/
theorem seen_upTo_succ {chain : List Version} (h : ∀ v ∈ chain, v.stamp ≤ last) :
    seen? chain (Snapshot.upTo (last + 1)) = seen? chain (Snapshot.upTo last) :=
  seen?_congr fun v hv => by
    rw [Snapshot.sees_upTo_of_le (h v hv), Snapshot.sees_upTo_of_le (Nat.le_succ_of_le (h v hv))]

theorem seen?_append_versionsOf (chain : List Version) {stamp : Stamp} {values : List Scalar}
    (h : values ≠ []) {s : Snapshot} (hs : s.sees stamp = true) :
    seen? (chain ++ versionsOf stamp values) s = some (values.getLast h) := by
  rcases List.eq_nil_or_concat values with rfl | ⟨front, y, rfl⟩
  · exact absurd rfl h
  · simp [versionsOf, ← List.append_assoc, seen?_snoc, hs]

theorem seen?_append_unseen (chain : List Version) {stamp : Stamp} (values : List Scalar)
    {s : Snapshot} (hs : s.sees stamp = false) :
    seen? (chain ++ versionsOf stamp values) s = seen? chain s := by
  rw [← s.seen?_versions, s.versions_append, s.versions_versionsOf_of_unseen hs, List.append_nil,
    s.seen?_versions]

/-- A column of a row after a commit, in the table and in its mirror. -/
theorem Mirrors.seen_commit (h : Mirrors last t u) (hc : Commits x (last + 1) table t t')
    (hown : TableOwned last source safe (x :: others) table t) (ho : ∀ y ∈ others, y.id ≠ x.id)
    (hids : ∀ y ∈ x :: others, last + 1 < y.id ∧ y.id < neverDeleted)
    {value : Nat → Nat → Scalar} (hvalue : ∀ i r, x.images table i r ≠ [] →
      t.value source i r x.snapshot = .ok (value i r))
    (hr : Rewrites (last + 1) value x.undo table u u₁) {time : Stamp} (ht : time ≤ last + 1)
    (i r : Nat) :
    seen? (u₁.chain i r) (Snapshot.upTo time) = seen? (t'.chain i r) (Snapshot.upTo time) := by
  have hxid : last < x.id := Nat.lt_of_succ_lt (hids x List.mem_cons_self).1
  have hcell := hown.cells i r
  obtain ⟨n, hn, hzero⟩ := hr.chain_eq i r
  rw [hc.chain_eq, hn]
  by_cases hx : x.images table i r = []
  · rw [map_restamp_of_ne (hcell.stamp_ne ho hxid hx), hzero.mpr (images_eq_nil.mp hx),
      List.replicate_zero, List.append_nil]
    rcases Nat.lt_or_ge last time with hlt | hle
    · obtain rfl : time = last + 1 := Nat.le_antisymm ht hlt
      rw [seen_upTo_succ (h.settled i r), h.seen_eq last (Nat.le_refl _),
        hcell.seen_succ fun y hy => (hids y hy).1]
    · exact h.seen_eq time hle i r
  · have hpos : List.replicate n (value i r) ≠ [] := by
      rw [Ne, List.replicate_eq_nil_iff, hzero, ← images_eq_nil]
      exact hx
    obtain ⟨settled, values, hheld⟩ := hcell.held ho hx
    obtain ⟨below, hb, -⟩ := hheld.images_eq
    have hread := readOver_append_own settled below values hb
    have hsettled : settled.map (Overlay.restamp x.id (last + 1)) = settled :=
      map_restamp_of_ne fun v hv =>
        Nat.ne_of_lt (Nat.lt_of_le_of_lt (hheld.settled_le v hv) hxid)
    have hrep : List.replicate n (⟨last + 1, value i r⟩ : Version) =
        versionsOf (last + 1) (List.replicate n (value i r)) := by
      rw [versionsOf, List.map_replicate]
    rw [hheld.chain_eq, List.map_append, hsettled, map_restamp_versionsOf, hrep]
    rcases Nat.lt_or_ge last time with hlt | hle
    · obtain rfl : time = last + 1 := Nat.le_antisymm ht hlt
      have hsees := Snapshot.sees_upTo_of_le (Nat.le_refl (last + 1))
      rw [seen?_append_versionsOf _ hpos hsees, seen?_append_versionsOf _ hheld.nonempty hsees,
        List.getLast_replicate]
      -- The value in the log is the last one that the transaction has written.
      have hlast := hvalue i r hx
      rw [Table.value, hheld.chain_eq, show x.id = x.snapshot.transaction from rfl, hread,
        List.getLast_cons hheld.nonempty] at hlast
      rw [Except.ok.inj hlast]
    · have hsees := Snapshot.sees_upTo_of_lt (Nat.lt_succ_of_le hle)
      rw [seen?_append_unseen _ _ hsees, seen?_append_unseen _ _ hsees, h.seen_eq time hle,
        hheld.chain_eq, seen?_append_unseen]
      exact Snapshot.sees_upTo_of_lt (Nat.lt_of_le_of_lt hle hxid)

/-- **A commit does the same to a table and to its mirror.** -/
theorem Mirrors.commit (h : Mirrors last t u) (hts : t.Sound)
    (hc : Commits x (last + 1) table t t')
    (hown : TableOwned last source safe (x :: others) table t) (ho : ∀ y ∈ others, y.id ≠ x.id)
    (hids : ∀ y ∈ x :: others, last + 1 < y.id ∧ y.id < neverDeleted)
    (hlt : last + 1 < neverDeleted)
    {value : Nat → Nat → Scalar} (hvalue : ∀ i r, x.images table i r ≠ [] →
      t.value source i r x.snapshot = .ok (value i r))
    (hr : Rewrites (last + 1) value x.undo table u u₁) :
    ∃ u', Mirrors (last + 1) t' u' ∧ Extends (last + 1) (x.rowsOf table) u₁ u' ∧
      ((x.rowsOf table = [] ∧ u' = u₁) ∨
        (x.rowsOf table ≠ [] ∧
          ∃ range, u₁.appendRows (x.rowsOf table) (last + 1) = (.ok range, u'))) := by
  have hd : u₁.definitions = t.definitions := hr.keeps.definitions_eq.trans h.definitions_eq
  obtain ⟨u', he, hbare, happend⟩ := hc.extend hts (hr.keeps.sound h.sound) hd
    (hr.keeps.bare_eq.trans h.bare_eq)
  refine ⟨u', ⟨he.sound, ?_, ?_, ?_, ?_, hbare, ?_, fun time ht i r => ?_, fun i r v hv => ?_⟩,
    he, happend⟩
  · rw [he.name_eq, hr.keeps.name_eq, h.name_eq, hc.name_eq]
  · rw [he.definitions_eq, hd, hc.definitions_eq]
  · rw [he.policy_eq, hr.keeps.policy_eq, h.policy_eq, hc.policy_eq]
  · rw [he.rows_eq, hr.keeps.rows_eq, h.rows_eq, hc.rows_eq]
  · exact h.stamps_commit hc hown ho hids hlt hr he
  · rw [he.chain_eq]
    exact h.seen_commit hc hown ho hids hvalue hr ht i r
  · rw [he.chain_eq] at hv
    obtain ⟨n, hn, -⟩ := hr.chain_eq i r
    rw [hn] at hv
    rcases List.mem_append.mp hv with hv | hv
    · exact Nat.le_succ_of_le (h.settled i r v hv)
    · rw [(List.mem_replicate.mp hv).2]

/-- **A commit of nothing in a table leaves its mirror as it is.** -/
theorem Mirrors.succ {active : List Transaction} (h : Mirrors last t u)
    (hown : TableOwned last source safe active table t) (hids : ∀ y ∈ active, last + 1 < y.id)
    (hlt : last + 1 < neverDeleted) : Mirrors (last + 1) t u where
  sound := h.sound
  name_eq := h.name_eq
  definitions_eq := h.definitions_eq
  policy_eq := h.policy_eq
  rows_eq := h.rows_eq
  bare_eq := h.bare_eq
  stamps_eq r := by
    have hrow := hown.rows r
    rw [h.stamps_eq r]
    cases hst : t.stamps? r with
    | none => rfl
    | some st =>
      rw [hst] at hrow
      exact (hrow.stamps_succ hids hlt).symm
  seen_eq time ht i r := by
    rcases Nat.lt_or_ge last time with hlt | hle
    · obtain rfl : time = last + 1 := Nat.le_antisymm ht hlt
      rw [seen_upTo_succ (h.settled i r), h.seen_eq last (Nat.le_refl _),
        (hown.cells i r).seen_succ hids]
    · exact h.seen_eq time hle i r
  settled i r v hv := Nat.le_succ_of_le (h.settled i r v hv)

end Table
end ColumnStore
