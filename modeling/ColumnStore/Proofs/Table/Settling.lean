/-
# Updates that are committed or taken back

A commit gives the versions of a transaction its time.  Taking the newest version back leaves the
versions before it, of which the writer then sees the newest again.
-/

import ColumnStore.Proofs.Table.Updates

namespace ColumnStore
namespace Table

/-- What changes to the chains of some rows of a column do to a table. -/
structure Rechains (t t' : Table) (i : Nat) (rows : List Nat)
    (f : List Version → List Version) : Prop where
  keeps : Keeps t t'
  stamps_eq : ∀ r, t'.stamps? r = t.stamps? r
  chain_eq : ∀ j r, t'.chain j r = if j = i ∧ r ∈ rows then f (t.chain j r) else t.chain j r

theorem rechains_withColumn {t : Table} (h : t.Sound) {i : Nat} {c c' : Column}
    (hc : t.columns[i]? = some c) (hk : Column.Keeps c c') {rows : List Nat}
    {f : List Version → List Version}
    (hchain : ∀ r, c'.chain r = if r ∈ rows then f (c.chain r) else c.chain r) :
    Rechains t (t.withColumn i c') i rows f := by
  refine ⟨keeps_withColumn h hc hk, fun _ => rfl, fun j r => ?_⟩
  rw [chain_withColumn hc]
  by_cases hj : j = i
  · subst hj
    simp only [if_true, true_and, chain_of_some hc, hchain]
  · simp only [hj, if_false, false_and]

/-- Changes of one row after the other, which may come several times. -/
theorem changeColumn_ok {g : Column → Nat → Except StorageError Column}
    {f : List Version → List Version} (hf : ∀ chain, f (f chain) = f chain)
    (hg : ∀ (c : Column) (row : Nat), c.Sound → row < c.rows → ∃ c', g c row = .ok c' ∧
      Column.Keeps c c' ∧ ∀ r, c'.chain r = if r = row then f (c.chain row) else c.chain r)
    {c : Column} (h : c.Sound) {rows : List Nat} (hrows : ∀ r ∈ rows, r < c.rows) :
    ∃ c', changeColumn g c rows = (.ok (), c') ∧ Column.Keeps c c' ∧
      ∀ r, c'.chain r = if r ∈ rows then f (c.chain r) else c.chain r := by
  induction rows generalizing c with
  | nil => exact ⟨c, rfl, Column.Keeps.refl h, by simp⟩
  | cons row rest ih =>
    obtain ⟨c₁, he, hk, hchain⟩ := hg c row h (hrows row List.mem_cons_self)
    obtain ⟨c', he', hk', hchain'⟩ := ih hk.sound fun r hr =>
      hk.rows_eq ▸ hrows r (List.mem_cons_of_mem _ hr)
    refine ⟨c', by simp only [changeColumn, he, he'], hk.trans hk', fun r => ?_⟩
    rw [hchain' r, hchain r]
    by_cases hr : r = row
    · subst hr
      by_cases hm : r ∈ rest <;> simp [hm, hf]
    · simp [hr]

theorem map_restamp_twice {transaction time : Stamp} (h : transaction ≠ time)
    (chain : List Version) :
    (chain.map (Overlay.restamp transaction time)).map (Overlay.restamp transaction time) =
      chain.map (Overlay.restamp transaction time) := by
  rw [List.map_map]
  refine List.map_congr_left fun v _ => ?_
  simp only [Function.comp_apply, Overlay.restamp]
  split
  · simp only [if_neg (Ne.symm h)]
  · rfl

/-- **Updates of a transaction are given the time of its commit.** -/
theorem commitUpdate_ok {t : Table} (h : t.Sound) {i : Nat} (hi : i < t.columns.length)
    {rows : List Nat} (hrows : ∀ r ∈ rows, r < t.rows) {transaction time : Stamp}
    (hne : transaction ≠ time) :
    ∃ t', t.commitUpdate i rows transaction time = (.ok (), t') ∧
      Rechains t t' i rows (·.map (Overlay.restamp transaction time)) := by
  have hc := List.getElem?_eq_getElem hi
  obtain ⟨d, -, -, hd⟩ := holds_of_some h hc
  obtain ⟨c', he, hk, hchain⟩ := changeColumn_ok
    (g := fun c row => c.commitUpdate row transaction time) (map_restamp_twice hne)
    (fun c row hs hrow => Column.commitUpdate_ok hs hrow transaction time) hd.sound
    fun r hr => hd.rows_eq ▸ hrows r hr
  refine ⟨t.withColumn i c', ?_, rechains_withColumn h hc hk hchain⟩
  simp only [commitUpdate, column_eq_ok.mpr hc, he]

/-- **The newest version of a transaction can be taken back** when the transaction sees the value
before again without it. -/
theorem revertUpdate_ok {t : Table} (h : t.Sound) {source : Source} {i row : Nat}
    (hi : i < t.columns.length) (hrow : row < t.rows) {s : Snapshot} {front : List Version}
    {x before : Scalar} (hchain : t.chain i row = front ++ [⟨s.transaction, x⟩])
    (hbefore : readOver (t.under source i row) front s = .ok before) :
    ∃ t', (t.revertUpdate source i row s before).result = .ok (.ok (), t') ∧
      Rechains t t' i [row] fun _ => front := by
  have hc := List.getElem?_eq_getElem hi
  obtain ⟨d, -, -, hd⟩ := holds_of_some h hc
  rw [chain_of_some hc] at hchain
  have hlast : Overlay.removeLast? s.transaction (t.columns[i].chain row) = some (x, front) := by
    have := Overlay.removeLast?_append s.transaction front [] ⟨s.transaction, x⟩ rfl
      (by simp)
    rw [hchain, this, List.append_nil]
  obtain ⟨c', he, hk, hchain'⟩ := Column.revertUpdate_ok hd.sound (hd.rows_eq ▸ hrow) s.transaction
  rw [hlast] at he
  have hfront : ∀ r, c'.chain r = if r = row then front else t.columns[i].chain r := by
    intro r
    rw [hchain' r, Overlay.dropLastOf, hlast]
  have hvalue : c'.value source row s = .ok before := by
    rw [Column.value, hfront row, if_pos rfl, hk.under_eq, ← hbefore, under_of_some hc]
  refine ⟨t.withColumn i c', ?_, rechains_withColumn h hc hk fun r => ?_⟩
  · simp only [revertUpdate, hc, he, Option.map_some, Reading.result_bind, Reading.result_attempt,
      ok_bind, Column.fetch_result, hvalue, Scalar.same_self, if_true, Reading.result_pure]
  · rw [hfront r]
    simp only [List.mem_singleton]

/-- **Updates of a transaction that has committed** put versions with its time behind those that are
there. -/
theorem updateCommitted_ok {t : Table} (h : t.Sound) {i : Nat} {c : Column}
    (hc : t.columns[i]? = some c) {rows : List Nat} (values : List Scalar)
    (hlen : rows.length = values.length) (hrows : ∀ r ∈ rows, r < t.rows)
    (hfit : ∀ x ∈ values, x.fits c.type = true) (time : Stamp) :
    ∃ t', t.updateCommitted i rows values time = (.ok (), t') ∧
      Writes t t' i time (rows.zip values) := by
  obtain ⟨d, -, -, hd⟩ := holds_of_some h hc
  have hwrite : ∀ (c : Column) (writes : List (Nat × Scalar)), c.Sound →
      (∀ p ∈ writes, p.1 < t.rows ∧ p.1 < c.rows ∧ p.2.fits c.type = true) →
      ∃ c', changeColumn (fun c x => do t.checkRow x.1; c.update x.1 ⟨time, x.2⟩) c writes =
          (.ok (), c') ∧ Column.Keeps c c' ∧
        ∀ r, c'.chain r = c.chain r ++ versionsOf time (valuesFor r writes) := by
    intro c writes hs hall
    induction writes generalizing c with
    | nil => exact ⟨c, rfl, Column.Keeps.refl hs, by simp⟩
    | cons p rest ih =>
      obtain ⟨hrow, hrow', hfit⟩ := hall p List.mem_cons_self
      obtain ⟨c₁, he, hk, hchain⟩ := Column.update_ok hs hrow' (v := ⟨time, p.2⟩) hfit
      obtain ⟨c', he', hk', hchain'⟩ := ih c₁ hk.sound fun q hq => by
        rw [hk.rows_eq, hk.type_eq]
        exact hall q (List.mem_cons_of_mem _ hq)
      refine ⟨c', ?_, hk.trans hk', fun r => ?_⟩
      · simp only [changeColumn, checkRow_of_lt hrow, ok_bind, he, he']
      · rw [hchain' r, hchain r, valuesFor_cons]
        by_cases hr : r = p.1
        · subst hr
          simp [versionsOf]
        · rw [if_neg hr, if_neg (Ne.symm hr)]
  obtain ⟨c', he, hk, hchain⟩ := hwrite c (rows.zip values) hd.sound fun p hp =>
    ⟨hrows _ (List.of_mem_zip hp).1, hd.rows_eq ▸ hrows _ (List.of_mem_zip hp).1,
      hfit _ (List.of_mem_zip hp).2⟩
  refine ⟨t.withColumn i c', ?_, writes_withColumn h hc hk hchain⟩
  simp only [updateCommitted, column_eq_ok.mpr hc, if_neg (not_not.mpr hlen), he]

end Table
end ColumnStore
