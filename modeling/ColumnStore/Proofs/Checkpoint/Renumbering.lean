/-
# What a checkpoint makes of the rows

A table that was written and is loaded again has the rows that everybody saw, with new numbers in
their order (`Checkpoint.Reloaded.under_eq`).  So it is told by the ledger in which the rows are
renumbered (`Checkpoint.Reloaded.tells`).
-/

import ColumnStore.Proofs.Checkpoint.Restoring
import ColumnStore.Proofs.Database.Ledger

namespace ColumnStore

/-- The places in a list where a test holds, and what stands there. -/
theorem forall₂_filter_range {α : Type} (p : α → Bool) (xs : List α) :
    List.Forall₂ (fun r x => xs[r]? = some x)
      ((List.range xs.length).filter fun r => (xs[r]?).any p) (xs.filter p) := by
  induction xs using List.reverseRecOn with
  | nil => exact .nil
  | append_singleton xs x ih =>
    have hfront : (List.range xs.length).filter (fun r => ((xs ++ [x])[r]?).any p) =
        (List.range xs.length).filter fun r => (xs[r]?).any p :=
      List.filter_congr fun r hr => by
        rw [List.getElem?_append_left (List.mem_range.mp hr)]
    have hlast : (xs ++ [x])[xs.length]? = some x := by simp
    rw [List.length_append, List.length_singleton, List.range_succ, List.filter_append,
      List.filter_append, hfront]
    refine List.rel_append (ih.imp fun r y hy => ?_) ?_
    · rw [List.getElem?_append_left (List.getElem?_eq_some_iff.mp hy).1, hy]
    · cases hx : p x with
      | true =>
        rw [List.filter_cons_of_pos hx, List.filter_cons_of_pos (by rw [hlast]; exact hx)]
        exact .cons hlast .nil
      | false =>
        rw [List.filter_cons_of_neg (by simp [hx]),
          List.filter_cons_of_neg (by simp [hx])]
        exact .nil

namespace Checkpoint

/-- A table that is loaded from the block file to which it was written. -/
structure Reloaded (source : Source) (policy : SegmentPolicy) (f : BlockFile) (d : Disk)
    (number : Nat) (t : Table) (columns : List Column) (r r' : TableRecord) (u : Table) : Prop where
  copied : Copied source t columns
  wide : t.definitions ≠ []
  policy_eq : t.policy = policy
  recorded : RecordsTable policy.compression (f, d) (t, columns) r
  alike : r.Alike r'
  restored : Restored t columns { f with writable := false } policy number r'.segments u

namespace Reloaded

variable {source : Source} {policy : SegmentPolicy} {f : BlockFile} {d : Disk} {number : Nat}
  {t u : Table} {columns : List Column} {r r' : TableRecord}

theorem places (h : Reloaded source policy f d number t columns r r' u) :
    List.Forall₂ Column.Places columns r'.segments := by
  refine forall₂_iff_getElem?.mpr
    ⟨h.recorded.segments.length_eq.trans h.alike.segments.length_eq, fun k c rs' hc hrs' => ?_⟩
  obtain ⟨rs, hrs, halike⟩ := exists_left_of_forall₂ h.alike.segments hrs'
  exact (places_of_records
    ((forall₂_iff_getElem?.mp h.recorded.segments).2 k c rs hc hrs)).alike halike

theorem rows_eq (h : Reloaded source policy f d number t columns r r' u) :
    u.rows = (t.visibleRows .committed).length := h.restored.rows_eq h.copied h.wide h.places

/-- **The rows that everybody saw** are loaded in their order. -/
theorem under_eq (h : Reloaded source policy f d number t columns r r' u)
    (hf : policy.compression.Faithful) (hw : f.Whole d)
    (hlong : (d.bytes f.file).length ≤ Bytes.longest) {i k row : Nat}
    (hi : i < t.definitions.length) (hk : (t.visibleRows .committed)[k]? = some row) :
    ∃ x y, t.value source i row .committed = .ok x ∧ u.under d.source i k = .ok y ∧
      y.same x = true := by
  have hi' : i < columns.length := h.copied.length_eq ▸ hi
  have hc := List.getElem?_eq_getElem hi'
  obtain ⟨x, hx, hcopied⟩ := exists_left_of_forall₂ h.copied.columns hc
  obtain ⟨_, -, -, hheld⟩ := Table.holds_of_some h.copied.sound hx
  obtain ⟨rs, hrs, hrecords⟩ := exists_right_of_forall₂ h.recorded.segments hc
  obtain ⟨rs', hrs', halike⟩ := exists_right_of_forall₂ h.alike.segments hrs
  have hpolicy : columns[i].policy = policy :=
    hcopied.policy_eq.trans (hheld.policy_eq.trans h.policy_eq)
  have hread : ∀ p, BlockFile.read { f with writable := false } d p = f.read d p := fun _ => rfl
  obtain ⟨v, y, hv, hy, hsame⟩ := Column.under_storedAt hcopied.sound hcopied.imaged (hpolicy ▸ hf)
    hw hlong (hpolicy ▸ hrecords) halike hread policy [number, i]
    (hcopied.rows_eq ▸ (List.getElem?_eq_some_iff.mp hk).1)
  refine ⟨v, y, ?_, ?_, hsame⟩
  · rw [Table.value_of_some hx, ← hcopied.under_eq source k row hk]
    exact hv source
  · rw [Table.under_of_some (h.restored.columns i _ rs' hc hrs')]
    exact hy

/-- **A table that is loaded** can be read. -/
theorem readable (h : Reloaded source policy f d number t columns r r' u)
    (hf : policy.compression.Faithful) (hw : f.Whole d)
    (hlong : (d.bytes f.file).length ≤ Bytes.longest) : u.Readable d.source := by
  intro c hc k hk
  obtain ⟨i, hi⟩ := List.mem_iff_getElem?.mp hc
  obtain ⟨x, hx, -, hheld⟩ := Table.holds_of_some h.restored.storedIn.sound hi
  rw [hheld.rows_eq, h.rows_eq] at hk
  obtain ⟨-, y, -, hy, -⟩ := h.under_eq hf hw hlong
    (h.restored.definitions_eq ▸ (List.getElem?_eq_some_iff.mp hx).1) (List.getElem?_eq_getElem hk)
  rw [Table.under_of_some hi] at hy
  exact ⟨y, hy⟩

/-- Everybody sees every row of a table that is loaded. -/
theorem visible (h : Reloaded source policy f d number t columns r r' u) {k : Nat}
    (hk : k < u.rows) : (u.stamps? k).any (·.isVisible .committed) = true := by
  obtain ⟨st, hst⟩ := Table.stamps?_of_lt hk
  rw [hst, h.restored.storedIn.stamps k st hst]
  rfl

/-- **A table that is loaded** is told by the ledger with new numbers for the rows. -/
theorem tells (h : Reloaded source policy f d number t columns r r' u)
    (hf : policy.compression.Faithful) (hw : f.Whole d)
    (hlong : (d.bytes f.file).length ≤ Bytes.longest) {l : LedgerTable} (hl : l.Tells source t) :
    LedgerTable.Tells { l with rows := l.rows.filter (·.isSome) } d.source u := by
  have hvisible : t.visibleRows .committed =
      (List.range l.rows.length).filter fun r => (l.rows[r]?).any (·.isSome) := by
    rw [Table.visibleRows, hl.rows_eq]
    refine List.filter_congr fun row hrow => ?_
    have hx := List.getElem?_eq_getElem (List.mem_range.mp hrow)
    rw [(hl.shows row _ hx).visible, hx]
    rfl
  have hrows := forall₂_filter_range (·.isSome) l.rows
  rw [← hvisible] at hrows
  refine ⟨h.restored.definitions_eq.trans hl.definitions_eq, h.rows_eq.trans hrows.length_eq,
    fun k x hx => ?_⟩
  obtain ⟨row, hrow, hlx⟩ := exists_left_of_forall₂ hrows hx
  have hsome : x.isSome = true := (List.mem_filter.mp (List.mem_of_getElem? hx)).2
  refine ⟨?_, fun values hvalues => ?_⟩
  · rw [hsome]
    exact h.visible (h.rows_eq ▸ (List.getElem?_eq_some_iff.mp hrow).1)
  · obtain ⟨hlen, hall⟩ := (hl.shows row x hlx).values values hvalues
    refine ⟨hlen.trans (congrArg List.length h.restored.definitions_eq).symm, fun i y hy => ?_⟩
    obtain ⟨v, hv, hsame⟩ := hall i y hy
    obtain ⟨v', w, hv', hw', hsame'⟩ := h.under_eq hf hw hlong
      (hlen ▸ (List.getElem?_eq_some_iff.mp hy).1) hrow
    obtain rfl := Except.ok.inj (hv.symm.trans hv')
    refine ⟨w, ?_, Scalar.same_trans hsame' hsame⟩
    rw [Table.value, h.restored.storedIn.chain_eq]
    exact hw'

/-- **A table that is loaded mirrors the one that goes on** in the same file. -/
theorem mirrors (h : Reloaded source policy f d number t columns r r' u) {t' : Table}
    (hr : Restored t columns f policy number r.segments t') (last : Stamp) :
    Table.Mirrors last t' u :=
  hr.mirrors h.restored h.copied h.wide
    (h.recorded.segments.imp fun _ _ => places_of_records) h.alike.segments last

end Reloaded
end Checkpoint
end ColumnStore
