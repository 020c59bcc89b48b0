/-
# What a snapshot sees of a table

A snapshot sees some of the stamps of a row and some of the versions in its columns.  Two states of
a table look alike to it when these are the same (`Looks`), and then it reads the same from both
(`Looks.value_eq`).  Writes with a stamp that the snapshot does not see do not change what it sees.
-/

import ColumnStore.Proofs.Table.Appending
import ColumnStore.Proofs.Table.Settling
import Mathlib.Data.List.Induction

namespace ColumnStore

namespace Snapshot

/-- The versions that a snapshot sees. -/
def versions (s : Snapshot) (chain : List Version) : List Version := chain.filter (s.sees ·.stamp)

/-- The stamps of a row that a snapshot sees, none of a row that it does not see inserted.  A deletion
that it does not see has not happened. -/
def stamps? (s : Snapshot) (st : RowStamps) : Option RowStamps :=
  if s.sees st.inserted then
    some (if s.sees st.deleted then st else st.withDeleted neverDeleted)
  else none

@[simp] theorem versions_nil (s : Snapshot) : s.versions [] = [] := rfl

@[simp] theorem versions_append (s : Snapshot) (chain more : List Version) :
    s.versions (chain ++ more) = s.versions chain ++ s.versions more := List.filter_append ..

theorem versions_versionsOf_of_unseen {s : Snapshot} {stamp : Stamp} (h : s.sees stamp = false)
    (values : List Scalar) : s.versions (versionsOf stamp values) = [] := by
  refine List.filter_eq_nil_iff.mpr fun v hv => ?_
  obtain ⟨x, -, rfl⟩ := List.mem_map.mp hv
  simp [h]

/-- Stamps that are replaced by others do not matter when neither is seen. -/
theorem versions_restamp {s : Snapshot} {id time : Stamp} (hid : s.sees id = false)
    (ht : s.sees time = false) (chain : List Version) :
    s.versions (chain.map (Overlay.restamp id time)) = s.versions chain := by
  induction chain with
  | nil => rfl
  | cons v rest ih =>
    simp only [versions, List.map_cons, List.filter_cons] at ih ⊢
    rw [ih, Overlay.restamp]
    by_cases h : v.stamp = id
    · simp [h, hid, ht]
    · rw [if_neg h]

/-- **What is read are the versions that are seen.** -/
theorem seen?_versions (s : Snapshot) (chain : List Version) :
    seen? (s.versions chain) s = seen? chain s := by
  induction chain using List.reverseRecOn with
  | nil => rfl
  | append_singleton front v ih =>
    rw [versions_append, seen?_snoc]
    by_cases h : s.sees v.stamp = true
    · rw [if_pos h, show s.versions [v] = [v] from List.filter_eq_self.mpr (by simpa using h),
        seen?_snoc, if_pos h]
    · rw [if_neg h, show s.versions [v] = [] from List.filter_eq_nil_iff.mpr (by simpa using h),
        List.append_nil, ih]

theorem readOver_congr {s : Snapshot} {chain chain' : List Version}
    (h : s.versions chain' = s.versions chain) (under : Except StorageError Scalar) :
    readOver under chain' s = readOver under chain s := by
  rw [readOver, readOver, ← seen?_versions, h, seen?_versions]

/-- **A row is visible when the snapshot sees its stamps and no deletion among them.** -/
theorem isVisible_eq {s : Snapshot} (h : s.sees neverDeleted = false) (st : RowStamps) :
    st.isVisible s = (s.stamps? st).any (·.deleted = neverDeleted) := by
  rw [RowStamps.isVisible, stamps?]
  cases s.sees st.inserted with
  | false => rfl
  | true =>
    cases hd : s.sees st.deleted with
    | false => simp
    | true =>
      have : st.deleted ≠ neverDeleted := fun he => by rw [he, h] at hd; cases hd
      simp [this]

theorem stamps?_withDeleted {s : Snapshot} {st : RowStamps} {stamp : Stamp}
    (hs : s.sees stamp = false) (hd : s.sees st.deleted = false) :
    s.stamps? (st.withDeleted stamp) = s.stamps? st := by
  simp [stamps?, hs, hd, RowStamps.withDeleted]

theorem stamps?_commitDelete {s : Snapshot} {st : RowStamps} {id time : Stamp}
    (hid : s.sees id = false) (ht : s.sees time = false) :
    s.stamps? (st.commitDelete id time) = s.stamps? st := by
  unfold RowStamps.commitDelete
  split
  · rename_i h
    exact stamps?_withDeleted ht (h ▸ hid)
  · rfl

end Snapshot

namespace Table

/-- Two states of a table, the later one with the same rows or more, that a snapshot cannot tell
apart. -/
structure Looks (s : Snapshot) (t t' : Table) : Prop where
  name_eq : t'.name = t.name
  definitions_eq : t'.definitions = t.definitions
  policy_eq : t'.policy = t.policy
  rows_le : t.rows ≤ t'.rows
  stamps_eq : ∀ r, (t'.stamps? r).bind s.stamps? = (t.stamps? r).bind s.stamps?
  versions_eq : ∀ i r, s.versions (t'.chain i r) = s.versions (t.chain i r)
  under_eq : ∀ source i r, r < t.rows → t'.under source i r = t.under source i r

theorem Looks.refl (s : Snapshot) (t : Table) : Looks s t t :=
  ⟨rfl, rfl, rfl, Nat.le_refl _, fun _ => rfl, fun _ _ => rfl, fun _ _ _ _ => rfl⟩

theorem Looks.trans {s : Snapshot} {a b c : Table} (h : Looks s a b) (h' : Looks s b c) :
    Looks s a c :=
  ⟨h'.name_eq.trans h.name_eq, h'.definitions_eq.trans h.definitions_eq,
    h'.policy_eq.trans h.policy_eq, Nat.le_trans h.rows_le h'.rows_le,
    fun r => (h'.stamps_eq r).trans (h.stamps_eq r),
    fun i r => (h'.versions_eq i r).trans (h.versions_eq i r), fun source i r hr =>
      (h'.under_eq source i r (Nat.lt_of_lt_of_le hr h.rows_le)).trans (h.under_eq source i r hr)⟩

/-- **What a snapshot reads in a row does not change.** -/
theorem Looks.value_eq {s : Snapshot} {t t' : Table} (h : Looks s t t') (source : Source)
    (i : Nat) {r : Nat} (hr : r < t.rows) : t'.value source i r s = t.value source i r s := by
  rw [value, value, h.under_eq source i r hr, Snapshot.readOver_congr (h.versions_eq i r)]

/-- The table looks the same except for what happens to some stamps. -/
theorem Restamps.looks {t t' : Table} {rows : List Nat} {f : RowStamps → RowStamps}
    (h : Restamps t t' rows f) {s : Snapshot}
    (hf : ∀ r ∈ rows, ∀ st, t.stamps? r = some st → s.stamps? (f st) = s.stamps? st) :
    Looks s t t' where
  name_eq := h.keeps.name_eq
  definitions_eq := h.keeps.definitions_eq
  policy_eq := h.keeps.policy_eq
  rows_le := Nat.le_of_eq h.keeps.rows_eq.symm
  stamps_eq r := by
    rw [h.stamps_eq r]
    split
    · rename_i hr
      cases hst : t.stamps? r with
      | none => rfl
      | some st => exact hf r hr st hst
    · rfl
  versions_eq i r := by rw [h.chain_eq i r]
  under_eq source i r _ := h.keeps.under_eq source i r

theorem Writes.looks {t t' : Table} {i : Nat} {stamp : Stamp} {writes : List (Nat × Scalar)}
    (h : Writes t t' i stamp writes) {s : Snapshot} (hs : s.sees stamp = false) :
    Looks s t t' where
  name_eq := h.keeps.name_eq
  definitions_eq := h.keeps.definitions_eq
  policy_eq := h.keeps.policy_eq
  rows_le := Nat.le_of_eq h.keeps.rows_eq.symm
  stamps_eq r := by rw [h.stamps_eq r]
  versions_eq j r := by
    rw [h.chain_eq j r]
    split
    · rw [Snapshot.versions_append, Snapshot.versions_versionsOf_of_unseen hs, List.append_nil]
    · rfl
  under_eq source j r _ := h.keeps.under_eq source j r

theorem Rechains.looks {t t' : Table} {i : Nat} {rows : List Nat}
    {f : List Version → List Version} (h : Rechains t t' i rows f) {s : Snapshot}
    (hf : ∀ r ∈ rows, s.versions (f (t.chain i r)) = s.versions (t.chain i r)) :
    Looks s t t' where
  name_eq := h.keeps.name_eq
  definitions_eq := h.keeps.definitions_eq
  policy_eq := h.keeps.policy_eq
  rows_le := Nat.le_of_eq h.keeps.rows_eq.symm
  stamps_eq r := by rw [h.stamps_eq r]
  versions_eq j r := by
    rw [h.chain_eq j r]
    split
    · rename_i hj
      obtain ⟨rfl, hr⟩ := hj
      exact hf r hr
    · rfl
  under_eq source j r _ := h.keeps.under_eq source j r

theorem Adds.looks {t t' : Table} {stamp : Stamp} {data : List Row} (h : Adds t t' stamp data)
    {s : Snapshot} (hs : s.sees stamp = false) : Looks s t t' where
  name_eq := h.name_eq
  definitions_eq := h.definitions_eq
  policy_eq := h.policy_eq
  rows_le := by rw [h.rows_eq]; omega
  stamps_eq r := by
    by_cases hr : r < t.rows
    · rw [h.stamps_old hr]
    · rw [h.stamps_new (by omega), stamps?_eq_none.mpr (by omega : t.rows ≤ r)]
      split
      · simp [Snapshot.stamps?, hs]
      · rfl
  versions_eq i r := by rw [h.chain_eq i r]
  under_eq source i r hr := h.under_old source i r hr

end Table
end ColumnStore
