/-
# What a copy is made of

A copy of a table has all that its snapshot sees, cut into segments as if it had been added row by row,
with the statistics of its own values (`Column.CopiedInto`).  Where memory suffices, nothing stands in
its way but values that are too long for one segment (`Table.Held.materialize`).
-/

import ColumnStore.Proofs.Column.Bounds
import ColumnStore.Proofs.Table.Carrying

namespace ColumnStore

/-- A vector of plain values has no other slots than its own. -/
theorem ValueVector.canBeNew_eq {t : ColumnType} (h : t.isNested = false) (n : Nat) :
    canBeNew t n = hasRoom t n := by
  cases t with
  | list item => cases h
  | _ => rfl

/-! ## Columns -/

namespace Column

/-- Rows of which the values that a snapshot sees are too long to be stored in one segment. -/
def TooLong (c : Column) (source : Source) (s : Snapshot) (rows : List Nat) : Prop :=
  ∃ v : ValueVector, v.Sound ∧ v.type = c.type ∧ v.capacity = rows.length ∧
    (∀ j row, rows[j]? = some row → ∃ x, c.value source row s = .ok x ∧ v.get? j = some x) ∧
    (UInt32.size ≤ rows.length ∨ UInt32.size ≤ SegmentImage.bodyLength v rows.length)

/-- A copy that is cut into segments from row 0 on, with the statistics of its own values. -/
structure CopiedInto (source : Source) (s : Snapshot) (rows : List Nat) (c fresh : Column) : Prop
    extends CopiedTo source s rows c fresh where
  cut : fresh.Cut [] 0
  tallied : fresh.Tallied

variable {source : Source} {s : Snapshot} {c fresh fresh' : Column} {rows more : List Nat}

theorem copiedInto_new (h : Column.new c.type c.policy = .ok fresh) :
    CopiedInto source s [] c fresh := by
  refine ⟨copiedTo_new h, cut_new h, ?_⟩
  obtain ⟨rfl, -⟩ := fresh_ok h
  rintro _ ⟨⟩

/-- **A full segment that was left open** begins where as many others end. -/
theorem Cut.leftOpen (h : c.Cut [] 0) (hopen : c.LeftOpen) : ∃ g ∈ c.segments, ∃ v k,
    g.Fills v ∧ g.start = k * c.policy.capacity ∧ g.Done c.policy ∧
      g.Overlong c.policy.compression := by
  obtain ⟨g, hg, hopened, hdone⟩ := hopen
  obtain ⟨front, full, tail, hparts, hold, -⟩ := h.parts
  obtain rfl := List.map_eq_nil_iff.mp hold
  have hsegments : c.segments = full ++ tail.toList := hparts.segments_eq
  obtain ⟨stop, hfull, -⟩ := exists_of_contiguous_append (hsegments ▸ h.sound.contiguous)
  obtain ⟨-, hbounds⟩ := bounds_full hfull fun u hu => (hparts.full u hu).count_eq
  have hmem : g ∈ full := by
    rcases List.mem_append.mp (hsegments ▸ hg) with hg | hg
    · exact hg
    · have hlt := (hparts.tail g (Option.mem_toList.mp hg)).lt
      exact absurd hdone.capacity_eq (Nat.ne_of_gt hlt)
  obtain ⟨k, hk⟩ := List.mem_iff_getElem?.mp hmem
  have hstart : g.start = k * c.policy.capacity := by
    have hlt := (List.getElem?_eq_some_iff.mp hk).1
    have hplace := congrArg (·[k]?) hbounds
    simp only [List.getElem?_map, hk, List.getElem?_range hlt, Option.map_some] at hplace
    exact (Prod.mk.inj (Option.some.inj hplace)).1.trans (Nat.zero_add _)
  obtain ⟨v, hv⟩ : ∃ v, g.data = .buffer v := by
    cases hd : g.data with
    | buffer v => exact ⟨v, rfl⟩
    | _ => simp [Segment.isOpen, hd] at hopened
  refine ⟨g, hg, v, k, ⟨(h.sound.segment g hg).1, hv⟩, hstart, hdone, ?_⟩
  exact hdone.closed.resolve_left (by simp [hopened])

/-- **A full segment of a copy that was left open** has rows that are too long. -/
theorem CopiedTo.tooLong (h : CopiedTo source s rows c fresh) {values : List Scalar}
    (hg : Grows fresh fresh' values)
    (hvalues : ∀ (k : Nat) (x : Scalar), values[k]? = some x →
      ∃ row, more[k]? = some row ∧ c.value source row s = .ok x)
    (hcut : fresh'.Cut [] 0) (hopen : fresh'.LeftOpen) :
    ∃ k, (k + 1) * c.policy.capacity ≤ (rows ++ more).length ∧
      c.TooLong source s (((rows ++ more).drop (k * c.policy.capacity)).take c.policy.capacity) := by
  obtain ⟨g, hmem, v, k, hfills, hstart, hdone, hlong⟩ := hcut.leftOpen hopen
  rw [hg.policy_eq, h.policy_eq] at hstart hdone
  obtain ⟨hv, htype, hcapacity, -⟩ := hfills.vector
  have hcount := hdone.count_eq
  -- The segment is within the rows that were to be copied.
  have hvaluesLe : values.length ≤ more.length := by
    by_contra hlt
    rw [Nat.not_le] at hlt
    obtain ⟨row, hrow, -⟩ := hvalues _ _ (List.getElem?_eq_getElem hlt)
    exact absurd (List.getElem?_eq_some_iff.mp hrow).1 (Nat.lt_irrefl _)
  have hstop : (k + 1) * c.policy.capacity ≤ fresh'.rows := by
    have hstop := stop_le_of_contiguous hcut.sound.contiguous hmem
    rw [Segment.stop, hstart, hcount] at hstop
    rwa [Nat.add_mul, Nat.one_mul]
  have hle : (k + 1) * c.policy.capacity ≤ (rows ++ more).length := by
    rw [hg.rows_eq, h.rows_eq] at hstop
    rw [List.length_append]
    omega
  have hlength : (((rows ++ more).drop (k * c.policy.capacity)).take c.policy.capacity).length =
      c.policy.capacity := by
    rw [List.length_take, List.length_drop]
    rw [Nat.add_mul, Nat.one_mul] at hle
    omega
  refine ⟨k, hle, v, hv, ?_, ?_, fun j row hrow => ?_, ?_⟩
  · exact htype.trans ((hcut.sound.segment g hmem).2.trans (hg.type_eq.trans h.type_eq))
  · rw [hlength, hcapacity, hdone.capacity_eq, hcount]
  · have hj : j < g.count := by
      rw [hcount, ← hlength]
      exact (List.getElem?_eq_some_iff.mp hrow).1
    rw [List.getElem?_take_of_lt (hcount ▸ hj), List.getElem?_drop] at hrow
    obtain ⟨hplace, hunder⟩ := under_segment hcut.sound hmem source hj
    rw [hstart] at hplace hunder
    rw [h.under_grows hg hvalues source hplace hrow] at hunder
    obtain ⟨x, hx, -⟩ := ValueVector.get?_of_lt hv (i := j) (by
      rw [hcapacity, hdone.capacity_eq]
      exact hj)
    exact ⟨x, hunder.trans (Segment.under_buffer hfills.data_eq source j hx), hx⟩
  · rw [hlength, ← hcount]
    exact hlong.large hfills

/-- Why a part of a column is not copied, though memory suffices: its values are too long. -/
def Refusal (c : Column) (source : Source) (s : Snapshot) (rows : List Nat) (e : StorageError) :
    Prop :=
  (∃ what n, e = .tooLarge what n) ∧ ∃ k, (k + 1) * c.policy.capacity ≤ rows.length ∧
    c.TooLong source s ((rows.drop (k * c.policy.capacity)).take c.policy.capacity)

/-- **A part of a column is copied,** unless it is refused. -/
theorem CopiedInto.copyPart (h : CopiedInto source s rows c fresh) (hc : c.Legible source)
    (hp : 0 < c.policy.capacity) {start count : Nat} {visible : List Nat}
    (hvisible : ∀ i ∈ visible, i < count) :
    Yields (CopiedInto source s (rows ++ visible.map (start + ·)) c)
      (fun e => ValueVector.canBeNew c.type count = true → c.checkRange start count = .ok () →
        ValueVector.hasRoom c.type c.policy.capacity = true →
          c.Refusal source s (rows ++ visible.map (start + ·)) e)
      (c.copyPart source s start count visible fresh) := by
  unfold Column.copyPart
  cases hv : (c.scan source start count s).result with
  | error e =>
    intro hnew hrange _
    obtain ⟨v, hscan, -⟩ := scan_ok hc hnew hrange s
    rw [hv] at hscan
    cases hscan
  | ok v =>
    obtain ⟨hsound, htype, -⟩ := scan_values hc hv
    obtain ⟨all, hlists, hvalues⟩ := lists_of_scan hc hvisible hv
    have hp' := h.policy_eq ▸ hp
    have happend : fresh.append v visible = fresh.appendRows v visible :=
      if_neg (not_not.mpr (htype.trans h.type_eq.symm))
    have hfits : ∀ i x, v.get? i = some x → x.fits fresh.type = true :=
      h.type_eq ▸ htype ▸ hsound.typed
    rw [ok_bind]
    obtain ⟨hpanic, hwhy⟩ |
        ⟨values, d, hlists', hgrows, hcut, ⟨hok, -⟩ | ⟨hopen, what, n, hlong⟩⟩ :=
      h.cut.appendRows hp' hfits visible
    · rw [happend, hpanic]
      intro _ _ hroom
      rcases hwhy with hnone | ⟨row, hrow, hnone⟩
      · rw [h.type_eq, h.policy_eq, hroom] at hnone
        cases hnone
      · have hmem : v.get? row ∈ all.map some := hlists ▸ List.mem_map_of_mem hrow
        rw [hnone] at hmem
        simp at hmem
    · have ha := happend.trans hok
      rw [ha]
      exact ⟨h.toCopiedTo.append hc hp hvisible hv ha, hcut, h.tallied.append h.sound hp' hlists ha⟩
    · rw [happend, hlong]
      intro _ _ _
      have hfront : all.take values.length = values := by
        rw [ValueVector.Lists, List.map_take, hlists, ← List.map_take] at hlists'
        exact List.map_injective_iff.mpr (fun _ _ => Option.some.inj) hlists'
      refine ⟨⟨what, n, rfl⟩, h.toCopiedTo.tooLong hgrows (fun k x hx => hvalues k x ?_) hcut hopen⟩
      rw [← hfront, List.getElem?_take] at hx
      split at hx
      · exact hx
      · cases hx

end Column

theorem Yields.mono {α : Type} {good : α → Prop} {why why' : StorageError → Prop}
    {x : Except StorageError α} (h : Yields good why x) (hwhy : ∀ e, why e → why' e) :
    Yields good why' x := by
  cases x with
  | error e => exact hwhy e h
  | ok a => exact h

/-! ## Tables -/

namespace Table

/-- There is memory for a copy of a table that is made of so many rows at a time: for the stamps of all
rows, and for vectors of the values that are read at a time and of those in a segment. -/
structure Roomy (t : Table) (vectorSize : Nat) : Prop where
  stamps : RowVersions.stampBytes * t.rows ≤ Bytes.longest
  vectors : ∀ type ∈ t.types,
    ValueVector.hasRoom type (min (max vectorSize 1) t.rows) = true
  segments : ∀ type ∈ t.types, ValueVector.hasRoom type t.policy.capacity = true

/-- A snapshot sees rows in a segment of a copy of a table that are too long to be stored. -/
def TooLong (t : Table) (source : Source) (s : Snapshot) : Prop :=
  ∃ c ∈ t.columns, ∃ k,
    c.TooLong source s (((t.visibleRows s).drop (k * t.policy.capacity)).take t.policy.capacity)

variable {source : Source} {t : Table}

/-- What is read at a time finds room in memory, and its rows have numbers. -/
theorem Roomy.part {vectorSize : Nat} (h : t.Roomy vectorSize) {c : Column}
    (htype : c.type ∈ t.types) (hplain : c.type.isNested = false) (hrows : t.rows ≤ c.rows)
    {start count : Nat} (hstop : start + count ≤ t.rows) (hcount : count ≤ max vectorSize 1) :
    ValueVector.canBeNew c.type count = true ∧ c.checkRange start count = .ok () := by
  constructor
  · have hroom := h.vectors c.type htype
    rw [ValueVector.hasRoom, decide_eq_true_iff] at hroom
    rw [ValueVector.canBeNew_eq hplain]
    exact decide_eq_true (Nat.le_trans (Nat.mul_le_mul_left _ (by omega)) hroom)
  · have hstamps := h.stamps
    have hlongest : Bytes.longest < UInt64.size := by decide
    rw [RowVersions.stampBytes] at hstamps
    rw [Column.checkRange, if_neg (by omega), if_neg (by omega)]

/-- **A copy of a table** has all that the snapshot sees.  Where memory suffices, it is refused only for
values that are too long for a segment. -/
theorem Held.materialize (h : t.Held source) (s : Snapshot) (vectorSize : Nat) :
    Yields (List.Forall₂ (Column.CopiedInto source s (t.visibleRows s)) t.columns)
      (fun e => t.Roomy vectorSize → (∃ what n, e = .tooLarge what n) ∧ t.TooLong source s)
      (t.materialize source s vectorSize).result := by
  have hcarried : ∀ c ∈ t.columns, ∃ type ∈ t.types, c.Carried source type t.policy t.rows := by
    intro c hc
    obtain ⟨i, hi⟩ := List.mem_iff_getElem?.mp hc
    obtain ⟨definition, hd, hcarried⟩ := h.column hi
    exact ⟨_, List.mem_map_of_mem (List.mem_of_getElem? hd), hcarried⟩
  refine materialize_yields (map_eq_of_forall₂ (h.columns.imp fun _ _ hc => hc.type_eq.symm))
    (fun c hc => ?_) (fun c hc f hf => ?_) fun start count hstop hcount c hc f hf => ?_
  · obtain ⟨type, -, hcarried⟩ := hcarried c hc
    exact hcarried.legible.sound.plain
  · obtain ⟨type, -, hcarried⟩ := hcarried c hc
    exact Column.copiedInto_new (hcarried.policy_eq ▸ hf)
  · obtain ⟨type, htype, hcarried⟩ := hcarried c hc
    rw [visibleBefore_add]
    refine (hf.copyPart hcarried.legible (hcarried.policy_eq ▸ h.capacity)
      (fun i => lt_of_mem_visibleAmong)).mono fun e hwhy hroom => ?_
    obtain ⟨hnew, hrange⟩ := hroom.part (hcarried.type_eq ▸ htype) hcarried.legible.sound.plain
      hcarried.rows_le hstop hcount
    obtain ⟨hlarge, k, hle, hlong⟩ := hwhy hnew hrange
      (by rw [hcarried.type_eq, hcarried.policy_eq]; exact hroom.segments type htype)
    rw [← visibleBefore_add, hcarried.policy_eq] at hle hlong
    refine ⟨hlarge, c, hc, k, ?_⟩
    -- The rows so far are the first of all rows that are seen.
    have hall : t.visibleRows s = t.visibleBefore s (start + count) ++
        (t.visibleAmong s (start + count) (t.rows - (start + count))).map (start + count + ·) := by
      rw [← visibleBefore_add, Nat.add_sub_cancel' hstop]
      rfl
    rw [Nat.add_mul, Nat.one_mul] at hle
    rwa [hall, List.drop_append_of_le_length (by omega), List.take_append_of_le_length (by
      rw [List.length_drop]
      omega)]

end Table
end ColumnStore
