/-
# Values under the updates

What is under the updates of a column depends on the column without them (`under_bare`).  Whether
the block file of a stored segment is open for writing does not matter.
-/

import ColumnStore.Proofs.Storage.Stored

namespace ColumnStore

/-- Where the values of a stored segment are, for one who only reads them. -/
def StoredValues.bare (v : StoredValues) : StoredValues :=
  { v with blocks := { v.blocks with writable := false } }

/-- A source that reads the same from block files open for writing. -/
def Source.Blind (source : Source) (v : StoredValues) : Prop := source.load v.bare = source.load v

/-- **What is read from blocks does not depend on who may write to them.** -/
theorem Disk.blind (d : Disk) (v : StoredValues) : d.source.Blind v := rfl

namespace Segment

theorem under_bare {s : Segment} {source : Source} (h : s.Safe source.Blind) (i : Nat) :
    s.bare.under source i = s.under source i := by
  have hbase : (s.bare.base source).result = (s.base source).result := by
    cases hd : s.data with
    | buffer v => simp only [base, bare, hd, SegmentData.bare]
    | sealed image v => simp only [base, bare, hd, SegmentData.bare]
    | stored v =>
      have hv : source.Blind v := h v (by rw [stored?, hd])
      simp only [base, bare, hd, SegmentData.bare, Reading.result_load]
      exact hv
  rw [under, under, hbase]

end Segment

namespace Column

theorem segmentIndex?_bare (c : Column) (row : Nat) :
    c.bare.segmentIndex? row = c.segmentIndex? row := by
  simp only [segmentIndex?, bare, List.findIdx?_map]
  rfl

theorem locate_bare (c : Column) (row : Nat) :
    c.bare.locate row = (c.locate row).map fun (i, s, p) => (i, s.bare, p) := by
  rw [locate, locate, segmentIndex?_bare]
  cases c.segmentIndex? row with
  | none => rfl
  | some i =>
    dsimp only
    rw [bare, List.getElem?_map]
    cases c.segments[i]? <;> rfl

/-- **What is under the updates of a column** is in the column without them. -/
theorem under_bare {c : Column} {source : Source} (h : c.Safe source.Blind) (row : Nat) :
    c.bare.under source row = c.under source row := by
  rw [under, under, locate_bare]
  cases hl : c.locate row with
  | error e => rfl
  | ok found =>
    obtain ⟨i, s, p⟩ := found
    exact Segment.under_bare (h.segment (List.mem_of_getElem? (mem_of_locate hl))) p

end Column

namespace Table

/-- **Tables with the same columns but for updates** have the same values under them. -/
theorem under_of_bare {t u : Table} (hname : u.name = t.name)
    (hb : u.columns.map Column.bare = t.columns.map Column.bare) {source : Source}
    (ht : t.Safe source.Blind) (hu : u.Safe source.Blind) (i row : Nat) :
    u.under source i row = t.under source i row := by
  have hi : (u.columns[i]?).map Column.bare = (t.columns[i]?).map Column.bare := by
    rw [← List.getElem?_map, ← List.getElem?_map, hb]
  cases hc : t.columns[i]? with
  | none =>
    rw [hc] at hi
    have hc' := Option.map_eq_none_iff.mp hi
    rw [under, under, column_of_none hc, column_of_none hc', hname]
  | some c =>
    rw [hc] at hi
    obtain ⟨c', hc', hbare⟩ := Option.map_eq_some_iff.mp hi
    rw [under_of_some hc, under_of_some hc',
      ← Column.under_bare (ht.column (List.mem_of_getElem? hc)),
      ← Column.under_bare (hu.column (List.mem_of_getElem? hc')), hbare]

end Table
end ColumnStore
