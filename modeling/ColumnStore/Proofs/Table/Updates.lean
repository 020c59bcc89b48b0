/-
# The updates of the rows of a table

An update adds versions to the chains of the rows that it names (`Writes`) and remembers what the
writer saw in them before.  Taking the newest version of a writer back, the writer sees the value
before again.
-/

import ColumnStore.Proofs.Table.Stamps
import ColumnStore.Proofs.Value.Ordering

namespace ColumnStore

/-- The values that go to a row, in order. -/
def valuesFor (row : Nat) (writes : List (Nat × Scalar)) : List Scalar :=
  (writes.filter (·.1 = row)).map (·.2)

@[simp] theorem valuesFor_nil (row : Nat) : valuesFor row [] = [] := rfl

theorem valuesFor_cons (row : Nat) (p : Nat × Scalar) (writes : List (Nat × Scalar)) :
    valuesFor row (p :: writes) =
      if p.1 = row then p.2 :: valuesFor row writes else valuesFor row writes := by
  unfold valuesFor
  by_cases h : p.1 = row <;> simp [h]

@[simp] theorem valuesFor_append (row : Nat) (writes more : List (Nat × Scalar)) :
    valuesFor row (writes ++ more) = valuesFor row writes ++ valuesFor row more := by
  simp [valuesFor]

/-- Nothing goes to a row that no write names. -/
theorem mem_valuesFor {row : Nat} {writes : List (Nat × Scalar)} {x : Scalar} :
    x ∈ valuesFor row writes ↔ (row, x) ∈ writes := by
  simp only [valuesFor, List.mem_map, List.mem_filter, decide_eq_true_iff]
  constructor
  · rintro ⟨⟨r, y⟩, ⟨hp, rfl⟩, rfl⟩
    exact hp
  · exact fun hp => ⟨_, ⟨hp, rfl⟩, rfl⟩

theorem valuesFor_eq_nil {row : Nat} {writes : List (Nat × Scalar)} :
    valuesFor row writes = [] ↔ row ∉ writes.map (·.1) := by
  simp only [valuesFor, List.map_eq_nil_iff, List.filter_eq_nil_iff, decide_eq_true_iff,
    List.mem_map, not_exists, not_and]

theorem map_fst_zip {rows : List Nat} {values : List Scalar} (h : values.length = rows.length) :
    (rows.zip values).map (·.1) = rows := List.map_fst_zip (by omega)

/-- Versions with one stamp. -/
def versionsOf (stamp : Stamp) (values : List Scalar) : List Version := values.map (⟨stamp, ·⟩)

@[simp] theorem versionsOf_nil (stamp : Stamp) : versionsOf stamp [] = [] := rfl

namespace Column

/-- What is under the updates can be read. -/
def Readable (c : Column) (source : Source) : Prop :=
  ∀ row, row < c.rows → ∃ x, c.under source row = .ok x

theorem Readable.value {c : Column} {source : Source} (h : c.Readable source) {row : Nat}
    (hrow : row < c.rows) (s : Snapshot) : ∃ x, c.value source row s = .ok x := by
  unfold Column.value readOver
  cases seen? (c.chain row) s with
  | some x => exact ⟨x, rfl⟩
  | none => exact h row hrow

theorem Keeps.readable {c c' : Column} (h : Keeps c c') {source : Source}
    (hr : c.Readable source) : c'.Readable source := by
  intro row hrow
  rw [h.under_eq]
  exact hr row (h.rows_eq ▸ hrow)

end Column

namespace Table

/-- **Writes to rows of a column** put versions behind those that are there.  What the writer sees
in a row before each of them is its value before the first and then what was written. -/
theorem updateRows_ok {source : Source} {s : Snapshot} {c : Column} (h : c.Sound)
    (hr : c.Readable source) {targets : List (Nat × Scalar)}
    (htargets : ∀ p ∈ targets, p.1 < c.rows ∧ p.2.fits c.type = true) :
    ∃ before c', (updateRows source s c targets).result = .ok (.ok before, c') ∧
      before.length = targets.length ∧ Column.Keeps c c' ∧
      (∀ r, c'.chain r = c.chain r ++ versionsOf s.transaction (valuesFor r targets)) ∧
      ∀ r x, c.value source r s = .ok x →
        valuesFor r ((targets.map (·.1)).zip before) = (x :: valuesFor r targets).dropLast := by
  induction targets generalizing c with
  | nil => exact ⟨[], c, rfl, rfl, Column.Keeps.refl h, by simp, by simp⟩
  | cons p rest ih =>
    obtain ⟨row, value⟩ := p
    obtain ⟨hrow, hfit⟩ := htargets _ List.mem_cons_self
    obtain ⟨x, hx⟩ := hr.value hrow s
    obtain ⟨c₁, hu, hk, hchain⟩ := Column.update_ok h hrow (v := ⟨s.transaction, value⟩) hfit
    obtain ⟨before, c', he, hlen, hk', hchain', himages⟩ := ih hk.sound (hk.readable hr)
      fun q hq => by
        rw [hk.rows_eq, hk.type_eq]
        exact htargets q (List.mem_cons_of_mem _ hq)
    -- After the write the writer sees the new value in the row, and the same as before in others.
    have hvalue : ∀ r, c₁.value source r s = if r = row then .ok value else c.value source r s := by
      intro r
      unfold Column.value
      rw [hchain r, hk.under_eq]
      by_cases hrr : r = row
      · rw [if_pos hrr, if_pos hrr, readOver_snoc, if_pos (sees_own s)]
      · rw [if_neg hrr, if_neg hrr]
    refine ⟨x :: before, c', ?_, by simp [hlen], hk.trans hk', fun r => ?_, fun r y hy => ?_⟩
    · simp only [updateRows, Reading.result_bind, Reading.result_attempt, ok_bind,
        Column.fetch_result, hx, hu, he, Reading.result_pure, map_ok]
    · rw [hchain' r, hchain r]
      by_cases hrr : r = row
      · subst hrr
        simp [valuesFor_cons, versionsOf]
      · rw [if_neg hrr, valuesFor_cons, if_neg (Ne.symm hrr)]
    · have hv := hvalue r
      rw [List.map_cons, List.zip_cons_cons, valuesFor_cons, valuesFor_cons]
      by_cases hrr : r = row
      · subst hrr
        rw [if_pos rfl] at hv
        obtain rfl : x = y := Except.ok.inj (hx.symm.trans hy)
        rw [if_pos rfl, if_pos rfl, himages r value hv, List.dropLast_cons_cons]
      · rw [if_neg hrr] at hv
        rw [if_neg (Ne.symm hrr), if_neg (Ne.symm hrr), himages r y (hv.trans hy)]

/-- **The rows to update** are those that the writer does not see as deleted, all of which it may
write to. -/
theorem updateTargets_ok {t : Table} {c : Column} {type : ColumnType} {s : Snapshot}
    {rows targets : List (Nat × Scalar)} (h : t.updateTargets c type s rows = .ok targets) :
    ∃ keep : Nat → Bool, targets = rows.filter (keep ·.1) ∧
      ∀ p ∈ rows, (keep p.1 = true ∧ t.Writable [c] p.1 s ∧ p.2.fits type = true) ∨
        (keep p.1 = false ∧ t.SeenDeleted p.1 s) := by
  refine ⟨fun row => (t.checkWrite [c] row s).toOption == some true, ?_⟩
  induction rows generalizing targets with
  | nil => exact ⟨(Except.ok.inj h).symm, by simp⟩
  | cons p rest ih =>
    obtain ⟨row, value⟩ := p
    simp only [updateTargets, bind, Except.bind] at h
    cases hc : t.checkWrite [c] row s with
    | error e => rw [hc] at h; cases h
    | ok b =>
      rw [hc] at h
      dsimp only at h
      cases b with
      | false =>
        obtain ⟨rfl, hrest⟩ := ih h
        refine ⟨by simp [hc, Except.toOption], fun q hq => ?_⟩
        rcases List.mem_cons.mp hq with rfl | hq
        · rcases of_checkWrite hc with ⟨hb, -⟩ | ⟨-, hd⟩
          · cases hb
          · exact Or.inr ⟨by simp [hc, Except.toOption], hd⟩
        · exact hrest q hq
      | true =>
        rw [if_pos rfl] at h
        cases hfit : value.fits type with
        | false => rw [hfit] at h; cases h
        | true =>
          simp only [hfit, Bool.not_true, Bool.false_eq_true, if_false, pure, Except.pure] at h
          cases hr : updateTargets t c type s rest with
          | error e => rw [hr] at h; cases h
          | ok more =>
            rw [hr] at h
            obtain ⟨rfl, hrest⟩ := ih hr
            refine ⟨by simpa [hc, Except.toOption] using (Except.ok.inj h).symm, fun q hq => ?_⟩
            rcases List.mem_cons.mp hq with rfl | hq
            · rcases of_checkWrite hc with ⟨-, hw⟩ | ⟨hb, -⟩
              · exact Or.inl ⟨by simp [hc, Except.toOption], hw, hfit⟩
              · cases hb
            · exact hrest q hq

/-- What writing versions to rows of a column does to a table. -/
structure Writes (t t' : Table) (i : Nat) (stamp : Stamp) (writes : List (Nat × Scalar)) :
    Prop where
  keeps : Keeps t t'
  stamps_eq : ∀ r, t'.stamps? r = t.stamps? r
  chain_eq : ∀ j r, t'.chain j r =
    if j = i then t.chain j r ++ versionsOf stamp (valuesFor r writes) else t.chain j r

theorem writes_withColumn {t : Table} (h : t.Sound) {i : Nat} {c c' : Column}
    (hc : t.columns[i]? = some c) (hk : Column.Keeps c c') {stamp : Stamp}
    {writes : List (Nat × Scalar)}
    (hchain : ∀ r, c'.chain r = c.chain r ++ versionsOf stamp (valuesFor r writes)) :
    Writes t (t.withColumn i c') i stamp writes := by
  refine ⟨keeps_withColumn h hc hk, fun _ => rfl, fun j r => ?_⟩
  rw [chain_withColumn hc]
  split
  · rename_i hj
    rw [hj, chain_of_some hc, hchain]
  · rfl

/-- What is under the updates of a table can be read. -/
def Readable (t : Table) (source : Source) : Prop := ∀ c ∈ t.columns, c.Readable source

/-- What an update of the given rows has done that was not refused: it has written `targets`, and the
values that the writer saw before are `before`. -/
structure Updates (t t' : Table) (source : Source) (i : Nat) (s : Snapshot)
    (rows targets : List (Nat × Scalar)) (before : List Scalar) : Prop where
  column : ∃ c, t.columns[i]? = some c ∧ ∀ p ∈ targets, t.Writable [c] p.1 s ∧
    p.2.fits c.type = true
  targets_eq : ∃ keep : Nat → Bool, targets = rows.filter (keep ·.1) ∧
    ∀ p ∈ rows, keep p.1 = false → t.SeenDeleted p.1 s
  length_before : before.length = targets.length
  writes : Writes t t' i s.transaction targets
  images : ∀ r x, t.value source i r s = .ok x →
    valuesFor r ((targets.map (·.1)).zip before) = (x :: valuesFor r targets).dropLast

theorem Updates.congr {t t' : Table} {source source' : Source} {i : Nat} {s : Snapshot}
    {rows targets : List (Nat × Scalar)} {before : List Scalar}
    (h : Updates t t' source i s rows targets before)
    (hs : ∀ r, t.under source' i r = t.under source i r) :
    Updates t t' source' i s rows targets before :=
  { h with images := fun r x hx => h.images r x (by rwa [value, ← hs r]) }

/-- What a row holds can be read. -/
theorem Readable.value {t : Table} (h : t.Sound) {source : Source} (hr : t.Readable source)
    {i row : Nat} (hi : i < t.columns.length) (hrow : row < t.rows) (s : Snapshot) :
    ∃ x, t.value source i row s = .ok x := by
  have hc := List.getElem?_eq_getElem hi
  obtain ⟨d, -, -, hd⟩ := holds_of_some h hc
  obtain ⟨x, hx⟩ := (hr _ (List.mem_of_getElem? hc)).value (hd.rows_eq ▸ hrow) s
  exact ⟨x, (value_of_some hc source row s).trans hx⟩

/-- **An update** writes to the rows that it names and that the writer does not see as deleted, or
is refused and changes nothing. -/
theorem update_cases {t : Table} (h : t.Sound) {source : Source} (hr : t.Readable source) (i : Nat)
    (rows : List Nat) (values : List Scalar) (s : Snapshot) :
    (∃ e, (t.update source i rows values s).result = .ok (.error e, t)) ∨
      ∃ targets before t', rows.length = values.length ∧
        (t.update source i rows values s).result = .ok (.ok (targets.map (·.1), before), t') ∧
        Updates t t' source i s (rows.zip values) targets before := by
  unfold update
  cases hc : t.columns[i]? with
  | none => exact Or.inl ⟨_, by rw [column_of_none hc]; rfl⟩
  | some c =>
    rw [column_eq_ok.mpr hc]
    obtain ⟨d, -, htype, hd⟩ := holds_of_some h hc
    dsimp only
    by_cases hlen : rows.length = values.length
    · rw [if_neg (not_not.mpr hlen), List.getD_eq_getElem?_getD, htype, Option.getD_some]
      cases ht : t.updateTargets c c.type s (rows.zip values) with
      | error e => exact Or.inl ⟨e, rfl⟩
      | ok targets =>
        obtain ⟨keep, htargets, hkeep⟩ := updateTargets_ok ht
        have hwritable : ∀ p ∈ targets, t.Writable [c] p.1 s ∧ p.2.fits c.type = true := by
          intro p hp
          rw [htargets] at hp
          obtain ⟨hp, hkp⟩ := List.mem_filter.mp hp
          rcases hkeep p hp with ⟨-, hw⟩ | ⟨hn, -⟩
          · exact hw
          · rw [hkp] at hn
            cases hn
        obtain ⟨before, c', he, hlen', hk, hchain, himages⟩ := updateRows_ok (s := s) hd.sound
          (hr c (List.mem_of_getElem? hc)) fun p hp =>
            ⟨hd.rows_eq ▸ (hwritable p hp).1.lt, (hwritable p hp).2⟩
        refine Or.inr ⟨targets, before, t.withColumn i c', hlen, ?_, ⟨c, hc, hwritable⟩,
          ⟨keep, htargets, fun p hp hn => ?_⟩, hlen', writes_withColumn h hc hk hchain,
          fun r x hx => himages r x ?_⟩
        · simp only [Reading.result_bind, he, ok_bind, Reading.result_pure, mapError_ok, map_ok]
        · rcases hkeep p hp with ⟨hkp, -⟩ | ⟨-, hd⟩
          · rw [hkp] at hn
            cases hn
          · exact hd
        · rw [← hx, value_of_some hc]
    · rw [if_pos hlen]
      exact Or.inl ⟨_, rfl⟩

end Table
end ColumnStore
