/-
# The stamps of the rows of a table

Deletions, their commits and taking them back change the stamps of the rows that they name, and
nothing else of a table.
-/

import ColumnStore.Proofs.Table.Shape

namespace ColumnStore

namespace RowStamps

/-- A row with another deletion stamp. -/
def withDeleted (stamp : Stamp) (r : RowStamps) : RowStamps := { r with deleted := stamp }

/-- A row whose deletion by a transaction carries the time of the commit. -/
def commitDelete (transaction time : Stamp) (r : RowStamps) : RowStamps :=
  if r.deleted = transaction then r.withDeleted time else r

@[simp] theorem inserted_withDeleted (stamp : Stamp) (r : RowStamps) :
    (r.withDeleted stamp).inserted = r.inserted := rfl

@[simp] theorem deleted_withDeleted (stamp : Stamp) (r : RowStamps) :
    (r.withDeleted stamp).deleted = stamp := rfl

@[simp] theorem inserted_commitDelete (transaction time : Stamp) (r : RowStamps) :
    (r.commitDelete transaction time).inserted = r.inserted := by
  unfold commitDelete
  split <;> rfl

end RowStamps

namespace RowVersions

@[simp] theorem size_setDeleted (v : RowVersions) (row : Nat) (stamp : Stamp) :
    (v.setDeleted row stamp).size = v.size := Array.size_modify

theorem getElem?_setDeleted (v : RowVersions) (row : Nat) (stamp : Stamp) (r : Nat) :
    (v.setDeleted row stamp).rows[r]? =
      if r = row then v.rows[r]?.map (RowStamps.withDeleted stamp) else v.rows[r]? := by
  simp only [setDeleted, Array.getElem?_modify, eq_comm (a := row)]
  rfl

end RowVersions

namespace Table

/-- What a change of the stamps of some rows does to a table. -/
structure Restamps (t t' : Table) (rows : List Nat) (f : RowStamps → RowStamps) : Prop where
  keeps : Keeps t t'
  chain_eq : ∀ i r, t'.chain i r = t.chain i r
  stamps_eq : ∀ r, t'.stamps? r = if r ∈ rows then (t.stamps? r).map f else t.stamps? r

theorem Restamps.refl {t : Table} (h : t.Sound) (f : RowStamps → RowStamps) :
    Restamps t t [] f := ⟨Keeps.refl h, fun _ _ => rfl, fun _ => by simp⟩

/-- One row after the other is changed, in such a way that to change it once more does nothing. -/
theorem Restamps.cons {t t' t'' : Table} {row : Nat} {rows : List Nat}
    {f : RowStamps → RowStamps} (hf : ∀ r, f (f r) = f r) (h : Restamps t t' [row] f)
    (h' : Restamps t' t'' rows f) : Restamps t t'' (row :: rows) f := by
  refine ⟨h.keeps.trans h'.keeps, fun i r => (h'.chain_eq i r).trans (h.chain_eq i r), fun r => ?_⟩
  have hr := h.stamps_eq r
  rw [h'.stamps_eq r]
  by_cases hrow : r = row
  · subst hrow
    rw [if_pos List.mem_cons_self] at hr
    rw [if_pos List.mem_cons_self, hr]
    split
    · cases t.stamps? r <;> simp [hf]
    · rfl
  · rw [if_neg (by simpa using hrow)] at hr
    simp only [hr, List.mem_cons, hrow, false_or]

theorem restamps_setDeleted {t : Table} (h : t.Sound) (row : Nat) (stamp : Stamp) :
    Restamps t { t with versions := t.versions.setDeleted row stamp } [row]
      (RowStamps.withDeleted stamp) := by
  refine ⟨keeps_withVersions h (RowVersions.size_setDeleted _ _ _), fun _ _ => rfl, fun r => ?_⟩
  simp only [List.mem_singleton]
  exact RowVersions.getElem?_setDeleted t.versions row stamp r

/-- **The stamps of rows that are there can be changed,** one after the other. -/
theorem changeVersions_ok {f : RowVersions → Nat → Option RowVersions}
    {g : RowStamps → RowStamps} (hg : ∀ r, g (g r) = g r)
    (hf : ∀ (t : Table) (row : Nat), t.Sound → row < t.rows →
      ∃ v, f t.versions row = some v ∧ Restamps t { t with versions := v } [row] g)
    {t : Table} (h : t.Sound) {rows : List Nat} (hrows : ∀ r ∈ rows, r < t.rows) :
    ∃ t', t.changeVersions f rows = (.ok (), t') ∧ Restamps t t' rows g := by
  induction rows generalizing t with
  | nil => exact ⟨t, rfl, Restamps.refl h g⟩
  | cons row rest ih =>
    have hrow := hrows row List.mem_cons_self
    obtain ⟨v, hv, hr⟩ := hf t row h hrow
    obtain ⟨t', he, hrest⟩ := ih (hr.keeps.sound h) fun r hm =>
      hr.keeps.rows_eq ▸ hrows r (List.mem_cons_of_mem _ hm)
    refine ⟨t', ?_, hr.cons hg hrest⟩
    simp only [changeVersions, checkRow_of_lt hrow, hv, present, bind, Except.bind]
    exact he

theorem commitDelete_ok {t : Table} (h : t.Sound) {rows : List Nat}
    (hrows : ∀ r ∈ rows, r < t.rows) (transaction time : Stamp) :
    ∃ t', t.commitDelete rows transaction time = (.ok (), t') ∧
      Restamps t t' rows (RowStamps.commitDelete transaction time) := by
  refine changeVersions_ok (fun r => ?_) (fun t row ht hrow => ?_) h hrows
  · by_cases hd : r.deleted = transaction
    · rw [show r.commitDelete transaction time = r.withDeleted time from if_pos hd]
      unfold RowStamps.commitDelete
      split <;> rfl
    · rw [show r.commitDelete transaction time = r from if_neg hd]
      exact if_neg hd
  · obtain ⟨st, hst⟩ := stamps?_of_lt hrow
    simp only [RowVersions.commitDelete?, show t.versions.rows[row]? = some st from hst,
      Option.map_some, Option.some.injEq, exists_eq_left']
    by_cases hd : st.deleted = transaction
    · rw [if_pos hd]
      have hr := restamps_setDeleted ht row time
      refine ⟨hr.keeps, hr.chain_eq, fun r => ?_⟩
      rw [hr.stamps_eq r]
      simp only [List.mem_singleton]
      split
      · rename_i hrr
        rw [hrr, hst]
        simp [RowStamps.commitDelete, hd]
      · rfl
    · rw [if_neg hd]
      refine ⟨Keeps.refl ht, fun _ _ => rfl, fun r => ?_⟩
      simp only [List.mem_singleton]
      split
      · rename_i hrr
        rw [hrr, show stamps? { t with versions := t.versions } row = some st from hst]
        simp [RowStamps.commitDelete, hd]
      · rfl

theorem deleteCommitted_ok {t : Table} (h : t.Sound) {rows : List Nat}
    (hrows : ∀ r ∈ rows, r < t.rows) (time : Stamp) :
    ∃ t', t.deleteCommitted rows time = (.ok (), t') ∧
      Restamps t t' rows (RowStamps.withDeleted time) := by
  refine changeVersions_ok (g := RowStamps.withDeleted time) (fun _ => rfl)
    (fun t row ht hrow => ?_) h hrows
  obtain ⟨st, hst⟩ := stamps?_of_lt hrow
  exact ⟨_, by simp only [RowVersions.mark?, show t.versions.rows[row]? = some st from hst,
    Option.map_some], restamps_setDeleted ht row time⟩

/-- **Deletions of a transaction can be taken back,** each once. -/
theorem revertDelete_ok {t : Table} (h : t.Sound) {rows : List Nat} (hnodup : rows.Nodup)
    {transaction : Stamp}
    (hrows : ∀ r ∈ rows, ∃ st, t.stamps? r = some st ∧ st.deleted = transaction) :
    ∃ t', t.revertDelete transaction rows = (.ok (), t') ∧
      Restamps t t' rows (RowStamps.withDeleted neverDeleted) := by
  induction rows generalizing t with
  | nil => exact ⟨t, rfl, Restamps.refl h _⟩
  | cons row rest ih =>
    obtain ⟨st, hst, hd⟩ := hrows row List.mem_cons_self
    have hr := restamps_setDeleted h row neverDeleted
    obtain ⟨hnot, hnodup⟩ := List.nodup_cons.mp hnodup
    obtain ⟨t', he, hrest⟩ := ih (hr.keeps.sound h) hnodup fun r hm => by
      rw [hr.stamps_eq r, if_neg (by simpa using fun heq : r = row => hnot (heq ▸ hm))]
      exact hrows r (List.mem_cons_of_mem _ hm)
    refine ⟨t', ?_, hr.cons (fun _ => rfl) hrest⟩
    simp only [revertDelete, RowVersions.unmark?, show t.versions.rows[row]? = some st from hst,
      Option.map_some, if_pos hd]
    exact he

/-! ## Deleting -/

/-- A row that a writer with a snapshot may write to: it sees the row, nobody has deleted it, and
the newest version of each of the columns is seen. -/
structure Writable (t : Table) (columns : List Column) (row : Nat) (s : Snapshot) : Prop where
  stamps : ∃ st, t.stamps? row = some st ∧ s.sees st.inserted = true ∧ st.deleted = neverDeleted
  newest : ∀ c ∈ columns, ∀ v, (c.chain row).getLast? = some v → s.sees v.stamp = true

/-- A row that a reader sees as deleted. -/
def SeenDeleted (t : Table) (row : Nat) (s : Snapshot) : Prop :=
  ∃ st, t.stamps? row = some st ∧ s.sees st.inserted = true ∧ st.deleted ≠ neverDeleted ∧
    s.sees st.deleted = true

theorem of_stamps? {t : Table} {row : Nat} {st : RowStamps} (h : t.stamps? row = some st) :
    row < t.rows := (Array.getElem?_eq_some_iff.mp h).1

theorem Writable.lt {t : Table} {columns : List Column} {row : Nat} {s : Snapshot}
    (h : t.Writable columns row s) : row < t.rows :=
  have ⟨_, hst, _⟩ := h.stamps
  of_stamps? hst

/-- **What the check before a write says.** -/
theorem of_checkWrite {t : Table} {columns : List Column} {row : Nat} {s : Snapshot} {b : Bool}
    (h : t.checkWrite columns row s = .ok b) :
    b = true ∧ t.Writable columns row s ∨ b = false ∧ t.SeenDeleted row s := by
  by_cases hrow : row < t.rows
  · obtain ⟨st, hst⟩ := stamps?_of_lt hrow
    have hhidden : columns.any (hasHiddenUpdate · row s) = false → ∀ c ∈ columns, ∀ v,
        (c.chain row).getLast? = some v → s.sees v.stamp = true := by
      intro hany c hc v hv
      have := List.any_eq_false.mp hany c hc
      rw [hasHiddenUpdate, Column.latestUpdate?_eq, hv] at this
      simpa using this
    simp only [checkWrite, checkRow_of_lt hrow, RowVersions.checkWrite?,
      show t.versions.rows[row]? = some st from hst, Option.map_some, present, Except.mapError,
      bind, Except.bind, pure, Except.pure, RowStamps.checkWrite] at h
    by_cases hi : s.sees st.inserted = true
    · by_cases hd : st.deleted = neverDeleted
      · simp only [hi, hd, Bool.not_true, Bool.false_eq_true, if_false, if_true] at h
        split at h
        · cases h
        · rename_i hany
          exact Or.inl ⟨(Except.ok.inj h).symm, ⟨st, hst, hi, hd⟩,
            hhidden (Bool.eq_false_iff.mpr hany)⟩
      · by_cases hs : s.sees st.deleted = true
        · simp only [hi, hd, hs, Bool.not_true, Bool.false_eq_true, if_false, if_true] at h
          exact Or.inr ⟨(Except.ok.inj h).symm, st, hst, hi, hd, hs⟩
        · simp [hi, hd, hs] at h
    · simp [hi] at h
  · simp only [checkWrite, checkRow, if_neg hrow, Except.mapError, bind, Except.bind] at h
    cases h

theorem filterAuxM_ok {α ε : Type} {f : α → Except ε Bool} {xs acc ys : List α}
    (h : xs.filterAuxM f acc = .ok ys) :
    ∃ zs : List α, ys = zs.reverse ++ acc ∧ zs.Sublist xs ∧ (∀ x ∈ zs, f x = .ok true) ∧
      ∀ x ∈ xs, x ∉ zs → f x = .ok false := by
  induction xs generalizing acc with
  | nil => exact ⟨[], (Except.ok.inj h).symm, List.Sublist.refl _, by simp, by simp⟩
  | cons x rest ih =>
    simp only [List.filterAuxM, bind, Except.bind] at h
    cases hx : f x with
    | error e => rw [hx] at h; cases h
    | ok b =>
      rw [hx] at h
      obtain ⟨zs, hys, hsub, htrue, hfalse⟩ := ih h
      cases b with
      | true =>
        refine ⟨x :: zs, by simpa using hys, hsub.cons_cons x, ?_, fun y hy hn => ?_⟩
        · rintro y (_ | ⟨_, hy⟩)
          · exact hx
          · exact htrue y hy
        · rw [List.mem_cons, not_or] at hn
          rcases List.mem_cons.mp hy with rfl | hy
          · exact absurd rfl hn.1
          · exact hfalse y hy hn.2
      | false =>
        refine ⟨zs, hys, hsub.cons x, htrue, fun y hy hn => ?_⟩
        rcases List.mem_cons.mp hy with rfl | hy
        · exact hx
        · exact hfalse y hy hn

/-- What a filter that may fail keeps. -/
theorem filterM_ok {α ε : Type} {f : α → Except ε Bool} {xs ys : List α}
    (h : xs.filterM f = .ok ys) :
    ys.Sublist xs ∧ (∀ x ∈ ys, f x = .ok true) ∧ ∀ x ∈ xs, x ∉ ys → f x = .ok false := by
  simp only [List.filterM, bind, Except.bind] at h
  cases hf : xs.filterAuxM f [] with
  | error e => rw [hf] at h; cases h
  | ok zs =>
    rw [hf] at h
    obtain ⟨us, rfl, hsub, htrue, hfalse⟩ := filterAuxM_ok hf
    obtain rfl : us = ys := by simpa [pure, Except.pure] using h
    exact ⟨hsub, htrue, hfalse⟩

theorem nodup_eraseDups (xs : List Nat) : xs.eraseDups.Nodup := by
  induction hn : xs.length using Nat.strongRecOn generalizing xs with
  | ind n ih =>
    cases xs with
    | nil => exact List.Pairwise.nil
    | cons x rest =>
      rw [List.eraseDups_cons, List.nodup_cons]
      refine ⟨by simp, ih _ ?_ _ rfl⟩
      have := List.length_filter_le (fun y => !y == x) rest
      simp only [List.length_cons] at hn
      omega

theorem restamps_foldl {t : Table} (h : t.Sound) (stamp : Stamp) (rows : List Nat) :
    Restamps t { t with versions := rows.foldl (fun v row => v.setDeleted row stamp) t.versions }
      rows (RowStamps.withDeleted stamp) := by
  induction rows generalizing t with
  | nil => exact Restamps.refl h _
  | cons row rest ih =>
    have hr := restamps_setDeleted h row stamp
    exact hr.cons (fun _ => rfl) (ih (hr.keeps.sound h))

/-- **A deletion** marks the rows that it names and that the writer does not see as deleted, all of
which the writer may write to. -/
theorem delete_ok {t t' : Table} (h : t.Sound) {rows targets : List Nat} {s : Snapshot}
    (hok : t.delete rows s = .ok (targets, t')) :
    targets.Nodup ∧ (∀ r ∈ targets, r ∈ rows ∧ t.Writable t.columns r s) ∧
      (∀ r ∈ rows, r ∉ targets → t.SeenDeleted r s) ∧
      Restamps t t' targets (RowStamps.withDeleted s.transaction) := by
  simp only [delete, bind, Except.bind, pure, Except.pure] at hok
  cases hf : rows.eraseDups.filterM fun row => t.checkWrite t.columns row s with
  | error e => rw [hf] at hok; cases hok
  | ok found =>
    rw [hf] at hok
    obtain ⟨rfl, rfl⟩ : found = targets ∧ _ = t' := by simpa using hok
    obtain ⟨hsub, htrue, hfalse⟩ := filterM_ok hf
    refine ⟨(nodup_eraseDups rows).sublist hsub, fun r hr => ?_, fun r hr hn => ?_,
      restamps_foldl h _ _⟩
    · refine ⟨List.mem_eraseDups.mp (hsub.subset hr), ?_⟩
      rcases of_checkWrite (htrue r hr) with ⟨-, hw⟩ | ⟨hb, -⟩
      · exact hw
      · cases hb
    · rcases of_checkWrite (hfalse r (List.mem_eraseDups.mpr hr) hn) with ⟨hb, -⟩ | ⟨-, hd⟩
      · cases hb
      · exact hd

end Table
end ColumnStore
