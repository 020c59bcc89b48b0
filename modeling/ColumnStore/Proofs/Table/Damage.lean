/-
# Tables with damaged segments

Segments are read when a row of theirs is first asked for, and may turn out to be damaged then.  An
update comes to that while it writes: the rows in front of the one that cannot be read are written
over, and nothing else is changed (`update_runs`).
-/

import ColumnStore.Proofs.Storage.Refusals
import ColumnStore.Proofs.Table.Settling

namespace ColumnStore
namespace Table

variable {d : Disk} {decoded : Decoded}

/-- What stopped an update of rows of a column: a row that cannot be read, behind others that can. -/
structure StopsAt (c : Column) (source : Source) (s : Snapshot) (targets done : List (Nat × Scalar))
    (e : StorageError) : Prop where
  damaged : ∃ p rest, targets = done ++ p :: rest ∧ c.value source p.1 s = .error e
  read : ∀ p ∈ done, ∃ x, c.value source p.1 s = .ok x
  unrefused : e.isRefusal = false

/-- **Writes to rows of a column** go as far as the rows can be read. -/
theorem updateRows_runs {s : Snapshot} {c : Column} (h : c.Sound) {targets : List (Nat × Scalar)}
    (htargets : ∀ p ∈ targets, p.1 < c.rows ∧ p.2.fits c.type = true) :
    ∃ r c' done, (updateRows (.ofDisk d decoded) s c targets).result = .ok (r, c') ∧
      Column.Keeps c c' ∧
      (∀ row, c'.chain row = c.chain row ++ versionsOf s.transaction (valuesFor row done)) ∧
      ((∃ before, r = .ok before ∧ done = targets ∧ before.length = targets.length) ∨
        ∃ e, r = .error e ∧ StopsAt c (.ofDisk d decoded) s targets done e) := by
  induction targets generalizing c with
  | nil =>
    exact ⟨.ok [], c, [], rfl, Column.Keeps.refl h, by simp, .inl ⟨[], rfl, rfl, rfl⟩⟩
  | cons p rest ih =>
    obtain ⟨row, value⟩ := p
    obtain ⟨hrow, hfit⟩ := htargets _ List.mem_cons_self
    cases hx : c.value (.ofDisk d decoded) row s with
    | error e =>
      refine ⟨.error e, c, [], ?_, Column.Keeps.refl h, by simp, .inr ⟨e, rfl,
        ⟨(row, value), rest, rfl, hx⟩, by simp, Column.unrefused_value h hrow s e hx⟩⟩
      simp only [updateRows, Reading.result_bind, Reading.result_attempt, ok_bind,
        Column.fetch_result, hx, Reading.result_pure]
    | ok x =>
      obtain ⟨c₁, hu, hk, hchain⟩ := Column.update_ok h hrow (v := ⟨s.transaction, value⟩) hfit
      obtain ⟨r, c', done, he, hk', hchain', hend⟩ := ih hk.sound fun q hq => by
        rw [hk.rows_eq, hk.type_eq]
        exact htargets q (List.mem_cons_of_mem _ hq)
      -- After the write the writer sees the new value in the row, and the same as before in others.
      have hvalue : ∀ r, c₁.value (.ofDisk d decoded) r s =
          if r = row then .ok value else c.value (.ofDisk d decoded) r s := by
        intro r
        unfold Column.value
        rw [hchain r, hk.under_eq]
        by_cases hr : r = row
        · rw [if_pos hr, if_pos hr, readOver_snoc, if_pos (sees_own s)]
        · rw [if_neg hr, if_neg hr]
      refine ⟨r.map (x :: ·), c', (row, value) :: done, ?_, hk.trans hk', fun q => ?_, ?_⟩
      · simp only [updateRows, Reading.result_bind, Reading.result_attempt, ok_bind,
          Column.fetch_result, hx, hu, he, Reading.result_pure]
      · rw [hchain' q, hchain q, valuesFor_cons]
        by_cases hq : q = row
        · subst hq
          simp [versionsOf]
        · rw [if_neg hq, if_neg (Ne.symm hq)]
      · rcases hend with ⟨before, rfl, rfl, hlen⟩ | ⟨e, rfl, ⟨p, more, hmore, hp⟩, hread, hun⟩
        · exact .inl ⟨x :: before, rfl, rfl, congrArg (· + 1) hlen⟩
        · refine .inr ⟨e, rfl, ⟨p, more, by rw [hmore, List.cons_append], ?_⟩,
            List.forall_mem_cons.mpr ⟨⟨x, hx⟩, fun q hq => ?_⟩, hun⟩
          · rw [hvalue] at hp
            split at hp
            · cases hp
            · exact hp
          · obtain ⟨y, hy⟩ := hread q hq
            rw [hvalue] at hy
            split at hy
            · rename_i hqr
              exact ⟨x, hqr ▸ hx⟩
            · exact ⟨y, hy⟩

/-- **An update** is refused before anything is written, or it writes to the rows that it names and
that the writer does not see as deleted, as far as they can be read. -/
theorem update_runs {t : Table} (h : t.Sound) (i : Nat) (rows : List Nat) (values : List Scalar)
    (s : Snapshot) :
    ∃ r t', (t.update (.ofDisk d decoded) i rows values s).result = .ok (r, t') ∧
      ((∃ e, r = .error e ∧ t' = t) ∨
        ∃ c targets done, t.columns[i]? = some c ∧
          (∀ p ∈ targets, p.1 ∈ rows ∧ t.Writable [c] p.1 s ∧ p.2.fits c.type = true) ∧
          Writes t t' i s.transaction done ∧
          ((∃ before, r = .ok (targets.map (·.1), before) ∧ done = targets ∧
              before.length = targets.length) ∨
            ∃ e, r = .error (.storage e) ∧ StopsAt c (.ofDisk d decoded) s targets done e)) := by
  unfold update
  cases hc : t.columns[i]? with
  | none => exact ⟨_, t, by rw [column_of_none hc]; rfl, .inl ⟨_, rfl, rfl⟩⟩
  | some c =>
    rw [column_eq_ok.mpr hc]
    obtain ⟨_, -, htype, hd⟩ := holds_of_some h hc
    dsimp only
    by_cases hlen : rows.length = values.length
    swap
    · rw [if_pos hlen]
      exact ⟨_, t, rfl, .inl ⟨_, rfl, rfl⟩⟩
    rw [if_neg (not_not.mpr hlen), List.getD_eq_getElem?_getD, htype, Option.getD_some]
    cases ht : t.updateTargets c c.type s (rows.zip values) with
    | error e => exact ⟨_, t, rfl, .inl ⟨e, rfl, rfl⟩⟩
    | ok targets =>
      obtain ⟨keep, rfl, hkeep⟩ := updateTargets_ok ht
      have hwritable : ∀ p ∈ (rows.zip values).filter (keep ·.1),
          p.1 ∈ rows ∧ t.Writable [c] p.1 s ∧ p.2.fits c.type = true := by
        intro p hp
        obtain ⟨hp, hkp⟩ := List.mem_filter.mp hp
        refine ⟨(List.of_mem_zip hp).1, ?_⟩
        rcases hkeep p hp with ⟨-, hw⟩ | ⟨hn, -⟩
        · exact hw
        · rw [hkp] at hn
          cases hn
      obtain ⟨r, c', done, he, hk, hchain, hend⟩ := @updateRows_runs d decoded s c hd.sound _
        fun p hp => ⟨hd.rows_eq ▸ (hwritable p hp).2.1.lt, (hwritable p hp).2.2⟩
      refine ⟨(r.mapError .storage).map fun before =>
          (((rows.zip values).filter (keep ·.1)).map (·.1), before), t.withColumn i c', ?_,
        .inr ⟨c, _, done, rfl, hwritable, writes_withColumn h hc hk hchain, ?_⟩⟩
      · simp only [Reading.result_bind, he, ok_bind, Reading.result_pure]
      · rcases hend with ⟨before, rfl, hdone, hlen'⟩ | ⟨e, rfl, hstop⟩
        · exact .inl ⟨before, rfl, hdone, hlen'⟩
        · exact .inr ⟨e, rfl, hstop⟩

/-- **Taking an update back** changes nothing but the versions of the row. -/
theorem revertUpdate_runs {t : Table} (h : t.Sound) (i : Nat) {row : Nat} (hrow : row < t.rows)
    (s : Snapshot) (before : Scalar) :
    ∃ r t', (t.revertUpdate (.ofDisk d decoded) i row s before).result = .ok (r, t') ∧
      Keeps t t' ∧ ∀ e, r = .error e → e.isRefusal = false := by
  unfold revertUpdate
  cases hc : t.columns[i]? with
  | none => exact ⟨_, t, rfl, Keeps.refl h, by rintro _ ⟨⟩; rfl⟩
  | some c =>
    obtain ⟨_, -, -, hd⟩ := holds_of_some h hc
    have hlt : row < c.rows := hd.rows_eq ▸ hrow
    obtain ⟨c', he, hk, -⟩ := Column.revertUpdate_ok hd.sound hlt s.transaction
    dsimp only
    rw [he]
    cases Overlay.removeLast? s.transaction (c.chain row) with
    | none => exact ⟨_, t, rfl, Keeps.refl h, by rintro _ ⟨⟩; rfl⟩
    | some found =>
      have hkeeps := keeps_withColumn h hc hk
      simp only [Option.map_some, Reading.result_bind, Reading.result_attempt, ok_bind,
        Column.fetch_result]
      cases hx : c'.value (.ofDisk d decoded) row s with
      | error e =>
        refine ⟨_, t.withColumn i c', rfl, hkeeps, ?_⟩
        rintro _ ⟨⟩
        exact Column.unrefused_value hk.sound (hk.rows_eq ▸ hlt) s e hx
      | ok restored =>
        dsimp only
        split
        · exact ⟨_, _, rfl, hkeeps, fun _ he => nomatch he⟩
        · exact ⟨_, _, rfl, hkeeps, by rintro _ ⟨⟩; rfl⟩

/-- **Taking deletions back** changes nothing but the stamps of the rows. -/
theorem revertDelete_runs {t : Table} (h : t.Sound) (transaction : Stamp) (rows : List Nat) :
    Keeps t (t.revertDelete transaction rows).2 ∧
      ∀ e, (t.revertDelete transaction rows).1 = .error e → e.isRefusal = false := by
  induction rows generalizing t with
  | nil => exact ⟨Keeps.refl h, fun _ he => nomatch he⟩
  | cons row rest ih =>
    rw [revertDelete]
    split
    · rename_i versions hu
      have hsize : versions.size = t.rows := by
        obtain ⟨st, -, hv⟩ := Option.map_eq_some_iff.mp hu
        split at hv
        · rw [← (Prod.mk.inj hv).2]
          exact RowVersions.size_setDeleted ..
        · cases (Prod.mk.inj hv).1
      have hk := keeps_withVersions h hsize
      obtain ⟨hk', he⟩ := ih (hk.sound h)
      exact ⟨hk.trans hk', he⟩
    · exact ⟨Keeps.refl h, by rintro _ ⟨⟩; rfl⟩

end Table
end ColumnStore
