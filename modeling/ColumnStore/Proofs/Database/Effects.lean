/-
# What a transaction has done to a row

Where the number of an active transaction stands for a stamp, the transaction has deleted the row or
written over a column of it (`Transaction.onRow`).  What it sees of a row is what was committed when it
began, with that done to it (`Table.row?_own`), and its commit makes that what everybody sees
(`Table.Commits.row?_old`).
-/

import ColumnStore.Proofs.Database.Contents
import ColumnStore.Proofs.Database.Guarding

namespace ColumnStore

/-! ## What is seen in a chain -/

section Chain

variable {last time : Stamp} {chain : List Version}

/-- The value of the newest version with a stamp. -/
def newestOf (id : Stamp) (chain : List Version) : Option Scalar :=
  ((chain.filter (·.stamp = id)).getLast?).map (·.value)

theorem newestOf_snoc (id : Stamp) (chain : List Version) (v : Version) :
    newestOf id (chain ++ [v]) = if v.stamp = id then some v.value else newestOf id chain := by
  rw [newestOf, List.filter_append]
  by_cases h : v.stamp = id
  · simp [h]
  · simp [h, newestOf]

theorem newestOf_append_versionsOf (id : Stamp) (chain : List Version) (values : List Scalar) :
    newestOf id (chain ++ versionsOf id values) = values.getLast?.or (newestOf id chain) := by
  induction values using List.reverseRecOn with
  | nil => simp
  | append_singleton values x _ =>
    rw [versionsOf, List.map_append, List.map_singleton, ← List.append_assoc, newestOf_snoc,
      if_pos rfl, List.getLast?_concat, Option.some_or]

/-- A chain is what is committed, and behind it what one active transaction has written. -/
theorem CellOwned.shape {active : List Transaction} {id : TableId} {column row : Nat}
    {under : Except StorageError Scalar} (h : CellOwned last active id column row under chain) :
    ∃ settled z values, chain = settled ++ versionsOf z values ∧ (∀ v ∈ settled, v.stamp ≤ last) ∧
      (values = [] ∨ ∃ y ∈ active, z = y.id) := by
  rcases h with ⟨hs, -⟩ | ⟨y, settled, values, hy⟩
  · exact ⟨chain, 0, [], (List.append_nil chain).symm, hs, Or.inl rfl⟩
  · exact ⟨settled, y.id, values, hy.chain_eq, hy.settled_le, Or.inr ⟨y, hy.mem, rfl⟩⟩

/-- Two snapshots that see the same of the stamps in a chain read the same, whatever becomes of the
stamps. -/
theorem seen?_map {f : Version → Version} {s s' : Snapshot}
    (h : ∀ v ∈ chain, s'.sees (f v).stamp = s.sees v.stamp ∧ (f v).value = v.value) :
    seen? (chain.map f) s' = seen? chain s := by
  induction chain using List.reverseRecOn with
  | nil => rfl
  | append_singleton chain v ih =>
    obtain ⟨hsees, hvalue⟩ := h v (List.mem_append_right _ List.mem_cons_self)
    rw [List.map_append, List.map_singleton, seen?_snoc, seen?_snoc, hsees, hvalue,
      ih fun w hw => h w (List.mem_append_left _ hw)]

/-- A transaction sees what was committed by a time, and what carries its number. -/
theorem sees_eq_upTo (time id stamp : Stamp) :
    Snapshot.sees ⟨time, id⟩ stamp = ((Snapshot.upTo time).sees stamp || decide (stamp = id)) := by
  refine Bool.eq_iff_iff.mpr ?_
  rw [Bool.or_eq_true, sees_iff, sees_iff, decide_eq_true_eq]
  refine or_congr_left ⟨Or.inl, fun h => h.elim (fun hle => hle) fun hzero => ?_⟩
  exact (show stamp = 0 from hzero) ▸ Nat.zero_le time

/-- **A transaction reads what it has written last,** and else what was committed by a time. -/
theorem seen?_own {settled : List Version} {values : List Scalar} {z id : Stamp}
    (hsettled : ∀ v ∈ settled, v.stamp ≤ last) (hz : values = [] ∨ last < z) (hid : last < id)
    (hle : time ≤ last) :
    seen? (settled ++ versionsOf z values) ⟨time, id⟩ =
      (newestOf id (settled ++ versionsOf z values)).or
        (seen? (settled ++ versionsOf z values) (Snapshot.upTo time)) := by
  have hold : ∀ stamp, stamp ≤ last →
      Snapshot.sees ⟨time, id⟩ stamp = (Snapshot.upTo time).sees stamp := by
    intro stamp hstamp
    have hne : stamp ≠ id := fun heq => absurd (heq ▸ hstamp) (Nat.not_le_of_lt hid)
    rw [sees_eq_upTo time id stamp, decide_eq_false hne, Bool.or_false]
  induction values using List.reverseRecOn with
  | nil =>
    have hnone : newestOf id settled = none := by
      rw [newestOf, List.filter_eq_nil_iff.mpr]
      · rfl
      · intro v hv heq
        exact absurd (of_decide_eq_true heq ▸ hsettled v hv) (Nat.not_le_of_lt hid)
    rw [versionsOf_nil, List.append_nil, hnone, Option.none_or]
    have hseen : seen? (settled.map fun v => v) ⟨time, id⟩ = seen? settled (Snapshot.upTo time) :=
      seen?_map fun v hv => ⟨hold v.stamp (hsettled v hv), rfl⟩
    rwa [List.map_id'] at hseen
  | append_singleton values x ih =>
    have hz' : last < z := hz.resolve_left (by simp)
    have hunseen : (Snapshot.upTo time).sees z = false :=
      Snapshot.sees_upTo_of_lt (Nat.lt_of_le_of_lt hle hz')
    have hversions : settled ++ versionsOf z (values ++ [x]) =
        (settled ++ versionsOf z values) ++ [⟨z, x⟩] := by
      rw [versionsOf, List.map_append, List.append_assoc]
      rfl
    rw [hversions, seen?_snoc, seen?_snoc, newestOf_snoc, hunseen, ih (Or.inr hz')]
    by_cases heq : z = id
    · subst heq
      rw [if_pos (sees_own ⟨time, z⟩), if_pos rfl, Option.some_or]
    · have hnot : Snapshot.sees ⟨time, id⟩ z = false := by
        rw [Bool.eq_false_iff]
        intro hs
        exact (sees_iff.mp hs).elim
          (fun h => absurd (Nat.le_trans h hle) (Nat.not_le_of_lt hz')) heq
      rw [if_neg (by simp [hnot]), if_neg heq, if_neg (by simp)]

end Chain

/-! ## Rows -/

namespace Table

variable {t t' : Table} {source source' : Source} {s s' : Snapshot}

/-- A row that two readers see and read alike, each in its table. -/
theorem row?_congr {r : Nat} (hdefinitions : t'.definitions = t.definitions)
    (hvisible : (t'.stamps? r).any (·.isVisible s') = (t.stamps? r).any (·.isVisible s))
    (hvalue : ∀ st, t.stamps? r = some st → st.isVisible s = true →
      ∀ i, i < t.definitions.length → t'.value source' i r s' = t.value source i r s) :
    t'.row? source' s' r = t.row? source s r := by
  cases hv : (t.stamps? r).any (·.isVisible s) with
  | false =>
    rw [row?_of_hidden hv, row?_of_hidden (hvisible.trans hv)]
  | true =>
    obtain ⟨st, hst, hseen⟩ := (Option.any_eq_true _ _).mp hv
    obtain ⟨st', hst', hseen'⟩ := (Option.any_eq_true _ _).mp (hvisible.trans hv)
    rw [row?, row?, isVisible?_eq, isVisible?_eq, hst, hst', Option.map_some, Option.map_some,
      hseen, hseen', if_pos rfl, if_pos rfl, hdefinitions]
    refine mapM_congr fun i hi => ?_
    rw [fetch_result source i (of_stamps? hst), fetch_result source' i (of_stamps? hst'),
      hvalue st hst hseen i (List.mem_range.mp hi)]

/-- The values of a row as a snapshot sees it. -/
def cells (t : Table) (source : Source) (s : Snapshot) (r : Nat) : Row :=
  (List.range t.definitions.length).map fun i => ((t.value source i r s).toOption).getD .null

theorem row?_eq (h : t.Legible source) (r : Nat) :
    t.row? source s r =
      if (t.stamps? r).any (·.isVisible s) then some (t.cells source s r) else none := by
  split
  · rename_i hv
    obtain ⟨row, hrow, hlength, hvalues⟩ := row?_of_visible h hv
    rw [hrow]
    refine congrArg some (List.ext_getElem (by simp [cells, hlength]) fun i hi hi' => ?_)
    simp only [cells, List.getElem_map, List.getElem_range, hvalues i (hlength ▸ hi),
      List.getD_eq_getElem?_getD, List.getElem?_eq_getElem hi]
    rfl
  · rename_i hv
    exact row?_of_hidden (Bool.eq_false_iff.mpr hv)

end Table

/-- What a transaction has made of a row of a table: nothing if it has deleted the row, and else it
has written over some columns. -/
def Transaction.onRow (x : Transaction) (t : Table) (r : Nat) (v : Option Row) : Option Row :=
  if (t.stamps? r).any (·.deleted = x.id) then none
  else v.map fun row => row.mapIdx fun i y => (newestOf x.id (t.chain i r)).getD y

/-- A transaction whose number does not stand in a row has done nothing to it. -/
theorem Transaction.onRow_of_untouched {x : Transaction} {t : Table} {r : Nat}
    (hstamps : ∀ st, t.stamps? r = some st → st.deleted ≠ x.id)
    (hchain : ∀ i, ∀ v ∈ t.chain i r, v.stamp ≠ x.id) (v : Option Row) : x.onRow t r v = v := by
  have hnot : (t.stamps? r).any (·.deleted = x.id) = false := by
    cases hst : t.stamps? r with
    | none => rfl
    | some st => exact decide_eq_false (hstamps st hst)
  have hnewest (i : Nat) : newestOf x.id (t.chain i r) = none := by
    rw [newestOf, List.filter_eq_nil_iff.mpr fun v hv => by simpa using hchain i v hv]
    rfl
  have hrow (row : Row) : (row.mapIdx fun i y => (newestOf x.id (t.chain i r)).getD y) = row := by
    refine List.ext_getElem (by simp) fun i hi hi' => ?_
    rw [List.getElem_mapIdx, hnewest, Option.getD_none]
  rw [onRow, hnot, if_neg Bool.false_ne_true]
  simp only [hrow, Option.map_id']

@[simp] theorem Transaction.onRow_none (x : Transaction) (t : Table) (r : Nat) :
    x.onRow t r none = none := by
  rw [onRow, Option.map_none, ite_self]

namespace Table

section

variable {last time : Stamp} {active others : List Transaction} {id : TableId} {t t' : Table}
  {source : Source} {base : Source} {safe : StoredValues → Prop} {x : Transaction}

/-- **What a transaction sees of a row** is what was committed by a time, with what it has done to
the row itself. -/
theorem row?_own (h : t.Legible source) (ho : TableOwned last base safe active id t)
    (hids : ∀ y ∈ active, last < y.id) (hx : last < x.id) (hle : time ≤ last) (r : Nat) :
    t.row? source ⟨time, x.id⟩ r = x.onRow t r (t.row? source (Snapshot.upTo time) r) := by
  rw [row?_eq h, row?_eq h, Transaction.onRow]
  cases hst : t.stamps? r with
  | none => rfl
  | some st =>
    have hrow := ho.rows r
    rw [hst] at hrow
    have hinserted := hrow.1
    have hvisible : st.isVisible ⟨time, x.id⟩ =
        (st.isVisible (Snapshot.upTo time) && !decide (st.deleted = x.id)) := by
      have hne : st.inserted ≠ x.id := fun heq =>
        absurd (heq ▸ hinserted) (Nat.not_le_of_lt hx)
      rw [RowStamps.isVisible, RowStamps.isVisible, sees_eq_upTo time x.id st.inserted,
        sees_eq_upTo time x.id st.deleted, decide_eq_false hne, Bool.or_false, Bool.not_or,
        Bool.and_assoc]
    have hvalue : ∀ i, ((t.value source i r ⟨time, x.id⟩).toOption).getD .null =
        (newestOf x.id (t.chain i r)).getD
          (((t.value source i r (Snapshot.upTo time)).toOption).getD .null) := by
      intro i
      obtain ⟨settled, z, values, hchain, hsettled, hz⟩ := (ho.cells i r).shape
      have hz' : values = [] ∨ last < z := by
        rcases hz with hz | ⟨y, hy, rfl⟩
        · exact .inl hz
        · exact .inr (hids y hy)
      have hown := seen?_own hsettled hz' hx hle
      rw [← hchain] at hown
      rw [value, value, readOver, readOver, hown]
      cases newestOf x.id (t.chain i r) <;> rfl
    rw [Option.any_some, Option.any_some, Option.any_some, hvisible]
    by_cases hd : st.deleted = x.id
    · simp [hd]
    · simp only [hd, decide_false, Bool.not_false, Bool.and_true]
      split
      · rw [if_neg (by simp), Option.map_some]
        refine congrArg some (List.ext_getElem (by simp [cells]) fun i hi hi' => ?_)
        simp only [cells, List.getElem_mapIdx, List.getElem_map, List.getElem_range, hvalue]
      · simp

/-- What a transaction does short of a commit is not seen by those who do not see its number. -/
theorem Touches.looks (h : Touches x t t') {s : Snapshot} (hid : s.sees x.id = false)
    (hnever : s.sees neverDeleted = false) : Looks s t t' := by
  cases h with
  | same h => exact h ▸ Looks.refl s t
  | marks rows h hw =>
    refine h.looks fun r hr st hst => Snapshot.stamps?_withDeleted hid ?_
    obtain ⟨st', hst', -, hd⟩ := (hw r hr).stamps
    obtain rfl := Option.some.inj (hst.symm.trans hst')
    rw [hd, hnever]
  | writes source i pairs targets before h => exact h.writes.looks hid
  | erases h =>
    refine ⟨h.keeps.name_eq, h.keeps.definitions_eq, h.keeps.policy_eq, Nat.le_of_eq
      h.keeps.rows_eq.symm, fun r => ?_, fun i r => ?_, fun source i r _ =>
      h.keeps.under_eq source i r⟩
    · rw [h.stamps_eq, Option.bind_map]
      refine congrArg (Option.bind (t.stamps? r)) (funext fun st => ?_)
      rw [Function.comp_apply, RowStamps.without]
      split
      · rename_i hd
        exact Snapshot.stamps?_withDeleted hnever (hd ▸ hid)
      · rfl
    · rw [h.chain_eq, Snapshot.versions, Snapshot.versions, List.filter_filter]
      refine List.filter_congr fun v _ => ?_
      by_cases hv : v.stamp = x.id
      · simp [hv, hid]
      · simp [hv]

/-- Nor is a commit, by those who do not see its time either. -/
theorem Commits.looks (h : Commits x time id t t') {s : Snapshot} (hid : s.sees x.id = false)
    (htime : s.sees time = false) : Looks s t t' := by
  refine ⟨h.name_eq, h.definitions_eq, h.policy_eq, h.rows_eq ▸ Nat.le_add_right _ _, fun r => ?_,
    fun i r => ?_, h.under_old⟩
  · rcases Nat.lt_or_ge r t.rows with hr | hr
    · rw [h.stamps_old r hr, Option.bind_map]
      exact congrArg (Option.bind (t.stamps? r)) (funext fun st =>
        Snapshot.stamps?_commitDelete hid htime)
    · rw [h.stamps_new r hr, stamps?_eq_none.mpr hr]
      split
      · simp [Snapshot.stamps?, htime]
      · rfl
  · rw [h.chain_eq, Snapshot.versions_restamp hid htime]

/-- The time of a commit is seen by everybody where the number was seen by the transaction. -/
theorem sees_restamped {stamp : Stamp} (hlast : last < time)
    (h : stamp ≤ last ∨ time < stamp) :
    (Snapshot.upTo time).sees (if stamp = x.id then time else stamp) =
      Snapshot.sees ⟨last, x.id⟩ stamp := by
  rw [sees_eq_upTo last x.id stamp]
  split
  · rename_i heq
    rw [Snapshot.sees_upTo_of_le (Nat.le_refl time), decide_eq_true heq, Bool.or_true]
  · rename_i hne
    rw [decide_eq_false hne, Bool.or_false]
    rcases h with h | h
    · rw [Snapshot.sees_upTo_of_le h, Snapshot.sees_upTo_of_le (Nat.le_trans h (Nat.le_of_lt hlast))]
    · rw [Snapshot.sees_upTo_of_lt h, Snapshot.sees_upTo_of_lt (Nat.lt_trans hlast h)]

/-- **A commit makes what the transaction saw what everybody sees.** -/
theorem Commits.row?_old (h : Commits x time id t t')
    (ho : TableOwned last base safe active id t) (hlast : last < time)
    (hids : ∀ y ∈ active, time < y.id) (hlt : time < neverDeleted) {source' : Source}
    (hunder : ∀ i r, r < t.rows → t'.under source' i r = t.under source i r) {r : Nat}
    (hr : r < t.rows) :
    t'.row? source' (Snapshot.upTo time) r = t.row? source ⟨last, x.id⟩ r := by
  refine row?_congr h.definitions_eq ?_ fun st hst _ i _ => ?_
  · rw [h.stamps_old r hr]
    cases hst : t.stamps? r with
    | none => rfl
    | some st =>
      have hrow := ho.rows r
      rw [hst] at hrow
      have hdeleted : st.deleted ≤ last ∨ time < st.deleted := by
        rcases hrow.deleted_cases with hd | hd | ⟨y, hy, hd⟩
        · exact Or.inl hd
        · exact Or.inr (hd ▸ hlt)
        · exact Or.inr (hd ▸ hids y hy)
      have hcommit : (st.commitDelete x.id time).deleted =
          if st.deleted = x.id then time else st.deleted := by
        rw [RowStamps.commitDelete]
        split <;> rfl
      have hinserted : Snapshot.sees ⟨last, x.id⟩ st.inserted = true := sees_iff.mpr (Or.inl hrow.1)
      rw [Option.map_some, Option.any_some, Option.any_some, RowStamps.isVisible,
        RowStamps.isVisible, hcommit, sees_restamped hlast hdeleted,
        RowStamps.inserted_commitDelete, hinserted,
        Snapshot.sees_upTo_of_le (Nat.le_trans hrow.1 (Nat.le_of_lt hlast))]
  · have hseen : seen? (t'.chain i r) (Snapshot.upTo time) =
        seen? (t.chain i r) ⟨last, x.id⟩ := by
      rw [h.chain_eq]
      refine seen?_map fun v hv => ?_
      have hstamp : v.stamp ≤ last ∨ time < v.stamp := by
        rcases (ho.cells i r).stamp_cases v hv with hle | ⟨y, hy, heq⟩
        · exact .inl hle
        · exact .inr (heq ▸ hids y hy)
      have hrestamp : (Overlay.restamp x.id time v).stamp =
          if v.stamp = x.id then time else v.stamp := by
        rw [Overlay.restamp]
        split <;> rfl
      refine ⟨by rw [hrestamp, sees_restamped hlast hstamp], ?_⟩
      rw [Overlay.restamp]
      split <;> rfl
    rw [value, value, readOver, readOver, hseen, hunder i r hr]

/-- **The rows of the transaction** are new rows that everybody sees. -/
theorem Commits.row?_new (h : Commits x time id t t') (hts : t.Sound) {source' : Source}
    (h' : t'.Legible source') (hlt : time < neverDeleted) {k : Nat} {row : Row}
    (hk : (x.rowsOf id)[k]? = some row) (hlength : row.length = t.definitions.length) :
    t'.row? source' (Snapshot.upTo time) (t.rows + k) = some row := by
  have hk' := (List.getElem?_eq_some_iff.mp hk).1
  have hstamps : t'.stamps? (t.rows + k) = some { inserted := time } := by
    rw [h.stamps_new _ (Nat.le_add_right _ _), if_pos (Nat.add_lt_add_left hk' _)]
  have hvisible : RowStamps.isVisible { inserted := time } (Snapshot.upTo time) = true := by
    rw [RowStamps.isVisible, Snapshot.sees_upTo_of_le (Nat.le_refl time),
      Snapshot.sees_upTo_of_lt hlt]
    rfl
  rw [row?_eq h', hstamps, Option.any_some, if_pos hvisible]
  refine congrArg some (List.ext_getElem (by simp [cells, h.definitions_eq, hlength])
    fun i hi hi' => ?_)
  have hi'' : i < t.columns.length := by
    rw [length_columns hts, ← hlength]
    exact hi'
  have hvalue : (columnOf (x.rowsOf id) i)[k]? = some row[i] := by
    rw [columnOf, List.getElem?_map, hk, Option.map_some, List.getD_eq_getElem?_getD,
      List.getElem?_eq_getElem hi', Option.getD_some]
  have hchain : t'.chain i (t.rows + k) = [] := by
    rw [h.chain_eq, chain_of_le hts (Nat.le_add_right _ _), List.map_nil]
  simp only [cells, List.getElem_map, List.getElem_range, value, readOver, hchain, seen?_nil,
    h.under_new source' i k _ hi'' hvalue]
  rfl

end

end Table
end ColumnStore
