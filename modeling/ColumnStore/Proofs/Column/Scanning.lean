/-
# What a scan of a column gives

A scan copies what the segments were filled with and writes the updates over it that the reader sees.
So each slot of the vector has the value that a reader of the row gets (`Column.scan_ok`).
-/

import ColumnStore.Proofs.Column.Appending
import ColumnStore.Proofs.Table.Updates

namespace ColumnStore

theorem ValueVector.Extends.mono {v v' : ValueVector} {n m : Nat} (h : v.Extends v' n)
    (hle : m ≤ n) : v.Extends v' m :=
  ⟨h.sound, h.type_eq, h.capacity_eq, fun j hj hc => h.get?_eq j (Nat.lt_of_lt_of_le hj hle) hc⟩

/-! ## Segments -/

namespace Segment

/-- The value that a reader gets from a row of a segment. -/
def value (s : Segment) (source : Source) (i : Nat) (snapshot : Snapshot) :
    Except StorageError Scalar :=
  readOver (s.under source i) (s.overlay.chain i) snapshot

/-- A segment of which every row can be read, with values of its type. -/
structure Legible (s : Segment) (source : Source) : Prop where
  sound : s.Sound
  under : ∀ i, i < s.count → ∃ x, s.under source i = .ok x ∧ x.fits s.type = true
  chain : ∀ i, ∀ v ∈ s.overlay.chain i, v.value.fits s.type = true

theorem resolve?_fits {o : Overlay} {t : ColumnType}
    (h : ∀ i, ∀ v ∈ o.chain i, v.value.fits t = true) {row : Nat} {snapshot : Snapshot} {x : Scalar}
    (hx : o.resolve? row snapshot = some x) : x.fits t = true := by
  obtain ⟨v, hv, rfl⟩ := Option.map_eq_some_iff.mp hx
  exact h row v (List.mem_reverse.mp (List.mem_of_find?_eq_some hv))

/-- **Updates are written over the rows that have any.** -/
theorem overlayRows_ok {o : Overlay} (snapshot : Snapshot) {start slot : Nat} {out : ValueVector}
    (h : out.Sound) {rows : List Nat}
    (hrows : ∀ row ∈ rows, start ≤ row ∧ slot + (row - start) < out.capacity)
    (hfit : ∀ row x, o.resolve? row snapshot = some x → x.fits out.type = true) :
    ∃ out', overlayRows o snapshot start slot out rows = .ok out' ∧ out.Extends out' slot ∧
      ∀ row, start ≤ row → slot + (row - start) < out.capacity →
        out'.get? (slot + (row - start)) = if row ∈ rows then
          (o.resolve? row snapshot).or (out.get? (slot + (row - start)))
        else out.get? (slot + (row - start)) := by
  induction rows generalizing out with
  | nil => exact ⟨out, rfl, .refl h slot, fun _ _ _ => rfl⟩
  | cons row rest ih =>
    have hrest := fun r hr => hrows r (List.mem_cons_of_mem _ hr)
    obtain ⟨hstart, hlt⟩ := hrows row List.mem_cons_self
    rw [overlayRows]
    cases hx : o.resolve? row snapshot with
    | none =>
      obtain ⟨out', he, hext, hget⟩ := ih h hrest hfit
      refine ⟨out', he, hext, fun r hr hslot => ?_⟩
      rw [hget r hr hslot]
      by_cases hrow : r = row
      · subst hrow
        rw [hx, if_pos List.mem_cons_self, Option.none_or, ite_self]
      · simp only [List.mem_cons, hrow, false_or]
    | some x =>
      obtain ⟨v, hset, hs, ht, hc, hself, hother⟩ :=
        ValueVector.set_ok h (i := slot + (row - start)) hlt (hfit row x hx)
      obtain ⟨out', he, hext, hget⟩ := ih hs (fun r hr => hc ▸ hrest r hr) fun r y hy => ht ▸ hfit r y hy
      have hplace : slot + row - start = slot + (row - start) := Nat.add_sub_assoc hstart slot
      have hover : out.Extends v slot := ⟨hs, ht, hc, fun j hj hjc => hother j (by omega) hjc⟩
      refine ⟨out', ?_, hover.trans hext (Nat.le_refl _), fun r hr hslot => ?_⟩
      · simp only [hplace, hset]
        exact he
      · rw [hget r hr (hc ▸ hslot)]
        by_cases hrow : r = row
        · subst hrow
          rw [hx, hself, if_pos List.mem_cons_self]
          simp only [Option.some_or, ite_self]
        · simp only [List.mem_cons, hrow, false_or]
          rw [hother _ (by omega) hslot]

/-- A row without versions is not among those with updates. -/
theorem resolve?_of_not_mem {o : Overlay} {row : Nat} (h : row ∉ o.chains.map (·.1))
    (snapshot : Snapshot) : o.resolve? row snapshot = none := by
  have hnone : o.chains.lookup row = none := List.lookup_eq_none_iff.mpr fun p hp =>
    bne_iff_ne.mpr fun heq => h (heq ▸ List.mem_map_of_mem hp)
  rw [Overlay.resolve?, Overlay.chain, hnone]
  rfl

/-- **A scan of rows of a segment** puts what a reader of each gets into its slot. -/
theorem scan_ok {s : Segment} {source : Source} (h : s.Legible source) {start stop : Nat}
    (hlt : start < stop) (hstop : stop ≤ s.count) (snapshot : Snapshot) {out : ValueVector}
    (hout : out.Sound) (htype : out.type = s.type) {slot : Nat}
    (hroom : slot + (stop - start) ≤ out.capacity) :
    ∃ out', (s.scan source start stop snapshot out slot).result = .ok out' ∧
      out.Extends out' slot ∧ ∀ i, start ≤ i → i < stop →
        ∃ x, s.value source i snapshot = .ok x ∧ out'.get? (slot + (i - start)) = some x := by
  -- What is under the updates comes from one vector.
  obtain ⟨base, hbase⟩ : ∃ base, (s.base source).result = .ok base := by
    obtain ⟨x, hx, -⟩ := h.under start (by omega)
    obtain ⟨base, hbase, -⟩ := under_eq_ok.mp hx
    exact ⟨base, hbase⟩
  have hunder : ∀ i, start ≤ i → i < stop →
      ∃ x, s.under source i = .ok x ∧ base.get? i = some x ∧ x.fits out.type = true := by
    intro i _ hi
    obtain ⟨x, hx, hfit⟩ := h.under i (by omega)
    obtain ⟨base', hbase', hget⟩ := under_eq_ok.mp hx
    obtain rfl := Except.ok.inj (hbase.symm.trans hbase')
    exact ⟨x, hx, hget, htype ▸ hfit⟩
  obtain ⟨values, hlists, hfit⟩ : ∃ values, base.Lists (List.range' start (stop - start)) values ∧
      ∀ x ∈ values, x.fits out.type = true := by
    refine ValueVector.exists_lists fun i hi => ?_
    obtain ⟨hle, hlt'⟩ := List.mem_range'_1.mp hi
    obtain ⟨x, -, hx, hfits⟩ := hunder i hle (by omega)
    exact ⟨x, hx, hfits⟩
  obtain ⟨hext, hcopied⟩ := ValueVector.copyRows_cases hout slot base
    (List.range' start (stop - start))
  have hok := ValueVector.copyRows_ok hout hlists (by rwa [List.length_range']) hfit
  obtain ⟨values', hlists', -, -, hholds⟩ := hcopied hok
  obtain ⟨copied, hcopy_eq⟩ : ∃ copied, out.copyRows slot base (List.range' start (stop - start)) =
      (.ok (), copied) := ⟨_, Prod.ext hok rfl⟩
  rw [hcopy_eq] at hext hholds
  have hcopy : ∀ i x, start ≤ i → i < stop → base.get? i = some x →
      copied.get? (slot + (i - start)) = some x := by
    intro i x hle hi hx
    refine hholds (i - start) x ((hlists'.getElem?_eq ?_).trans hx)
    rw [List.getElem?_range' (by omega), Nat.one_mul, Nat.add_sub_cancel' hle]
  have hrows : ∀ row ∈ (s.overlay.chains.map (·.1)).filter (fun row => start ≤ row && row < stop),
      start ≤ row ∧ slot + (row - start) < copied.capacity := by
    intro row hrow
    have := (List.mem_filter.mp hrow).2
    rw [Bool.and_eq_true, decide_eq_true_iff, decide_eq_true_iff] at this
    rw [hext.capacity_eq]
    omega
  obtain ⟨out', he, hext', hget⟩ := overlayRows_ok snapshot hext.sound hrows
    fun row x hx => by rw [hext.type_eq, htype]; exact resolve?_fits h.chain hx
  refine ⟨out', ?_, hext.trans hext' (Nat.le_refl _), fun i hle hi => ?_⟩
  · have hnot : ¬s.count < stop := Nat.not_lt_of_le hstop
    have hrange : s.overlay.rows? start stop = some
        ((s.overlay.chains.map (·.1)).filter (fun row => start ≤ row && row < stop)) := by
      rw [Overlay.rows?, if_neg (by simp; omega)]
    simp only [scan, if_neg hnot, Reading.result_bind, hbase, ok_bind, hcopy_eq, hrange,
      Reading.result_of, he, mapError_ok]
  · obtain ⟨x, hx, hb, -⟩ := hunder i hle hi
    rw [hget i hle (by rw [hext.capacity_eq]; omega), hcopy i x hle hi hb]
    change ∃ y, readOver (s.under source i) (s.overlay.chain i) snapshot = .ok y ∧ _
    have hseen : seen? (s.overlay.chain i) snapshot = s.overlay.resolve? i snapshot := rfl
    rw [readOver, hseen, hx]
    by_cases hmem : i ∈ s.overlay.chains.map (·.1)
    · rw [if_pos (List.mem_filter.mpr ⟨hmem, by simp; omega⟩)]
      cases s.overlay.resolve? i snapshot with
      | some y => exact ⟨y, rfl, rfl⟩
      | none => exact ⟨x, rfl, rfl⟩
    · rw [if_neg fun hm => hmem (List.mem_filter.mp hm).1, resolve?_of_not_mem hmem]
      exact ⟨x, rfl, rfl⟩

end Segment

/-! ## Columns -/

namespace Column

/-- A column of which every row can be read, with values of its type. -/
structure Legible (c : Column) (source : Source) : Prop where
  sound : c.Sound
  under : ∀ row, row < c.rows → ∃ x, c.under source row = .ok x ∧ x.fits c.type = true
  chain : ∀ row, ∀ v ∈ c.chain row, v.value.fits c.type = true

theorem Legible.segment {c : Column} {source : Source} (h : c.Legible source) {s : Segment}
    (hs : s ∈ c.segments) : s.Legible source ∧ s.type = c.type := by
  obtain ⟨j, hj⟩ := List.mem_iff_getElem?.mp hs
  obtain ⟨hsound, htype⟩ := h.sound.segment s hs
  refine ⟨⟨hsound, fun i hi => ?_, fun i v hv => ?_⟩, htype⟩
  · obtain ⟨hrow, hl⟩ := locate_of_mem h.sound hj hi
    have := h.under _ hrow
    rwa [Column.under, hl, ok_bind, ← htype] at this
  · rcases Nat.lt_or_ge i s.count with hi | hi
    · obtain ⟨-, hl⟩ := locate_of_mem h.sound hj hi
      rw [htype]
      exact h.chain (s.start + i) v (by rwa [Column.chain, hl])
    · rw [hsound.chain_nil i hi] at hv
      cases hv

/-- The value of a row is that of its place in its segment. -/
theorem value_of_locate {c : Column} {row i p : Nat} {s : Segment}
    (hl : c.locate row = .ok (i, s, p)) (source : Source) (snapshot : Snapshot) :
    c.value source row snapshot = s.value source p snapshot := by
  rw [value, Segment.value, chain, under, hl]
  rfl

/-- **A scan of segments** puts what a reader of each row gets into its slot. -/
theorem scanSegments_ok {source : Source} {t : ColumnType} {segments : List Segment} {first last : Nat}
    (hc : Contiguous first segments last) (hs : ∀ s ∈ segments, s.Legible source ∧ s.type = t)
    {start stop : Nat} (snapshot : Snapshot) {out : ValueVector} (hout : out.Sound)
    (htype : out.type = t) {slot : Nat} (hroom : slot + (stop - start) ≤ out.capacity) :
    ∃ out', (scanSegments source start stop snapshot slot out segments).result = .ok out' ∧
      out.Extends out' (slot + (first - start)) ∧
      ∀ s ∈ segments, ∀ i, i < s.count → start ≤ s.start + i → s.start + i < stop →
        ∃ x, s.value source i snapshot = .ok x ∧
          out'.get? (slot + (s.start + i - start)) = some x := by
  induction segments generalizing first out with
  | nil => exact ⟨out, rfl, .refl hout _, fun s hs => absurd hs List.not_mem_nil⟩
  | cons s rest ih =>
    obtain ⟨hfirst, hrest⟩ := hc
    obtain ⟨hlegible, hst⟩ := hs s List.mem_cons_self
    have hsrest := fun u hu => hs u (List.mem_cons_of_mem _ hu)
    have hstop : s.stop = s.start + s.count := rfl
    rw [scanSegments]
    by_cases hlt : max start s.start < min stop s.stop
    · -- The segment has some of the rows.
      rw [if_pos hlt, Reading.result_bind]
      have hroom' : slot + (max start s.start - start) +
          (min stop s.stop - s.start - (max start s.start - s.start)) ≤ out.capacity := by omega
      have hsome : max start s.start - s.start < min stop s.stop - s.start := by omega
      obtain ⟨out₁, he, hext, hget⟩ := Segment.scan_ok hlegible hsome (by omega) snapshot hout
        (htype.trans hst.symm) hroom'
      obtain ⟨out', he', hext', hget'⟩ := ih hrest hsrest hext.sound (hext.type_eq.trans htype)
        (by rw [hext.capacity_eq]; exact hroom)
      refine ⟨out', by rw [he]; exact he', ?_, fun u hu i hi hlo hhi => ?_⟩
      · refine ValueVector.Extends.mono (hext.trans hext' ?_) ?_ <;> omega
      · rcases List.mem_cons.mp hu with rfl | hu
        · obtain ⟨x, hx, hgx⟩ := hget i (by omega) (by omega)
          refine ⟨x, hx, ?_⟩
          rw [hext'.get?_eq _ (by omega) (by rw [hext.capacity_eq]; omega), ← hgx]
          congr 1
          omega
        · exact hget' u hu i hi hlo hhi
    · rw [if_neg hlt]
      obtain ⟨out', he, hext, hget⟩ := ih hrest hsrest hout htype hroom
      refine ⟨out', he, hext.mono (by omega), fun u hu i hi hlo hhi => ?_⟩
      rcases List.mem_cons.mp hu with rfl | hu
      · omega
      · exact hget u hu i hi hlo hhi

/-- **A scan of a column** gives what a reader of each row gets. -/
theorem scan_ok {c : Column} {source : Source} (h : c.Legible source) {start count : Nat}
    (hnew : ValueVector.canBeNew c.type count = true) (hrange : c.checkRange start count = .ok ())
    (snapshot : Snapshot) :
    ∃ v, (c.scan source start count snapshot).result = .ok v ∧ v.Sound ∧ v.type = c.type ∧
      v.capacity = count ∧ ∀ k, k < count →
        ∃ x, c.value source (start + k) snapshot = .ok x ∧ v.get? k = some x := by
  have hrows : start + count ≤ c.rows := by
    unfold checkRange at hrange
    split at hrange
    · cases hrange
    · split at hrange
      · cases hrange
      · omega
  have hroom : 0 + (start + count - start) ≤ (ValueVector.new c.type count).capacity := by
    rw [ValueVector.capacity_new]
    omega
  obtain ⟨v, he, hext, hget⟩ := scanSegments_ok h.sound.contiguous (fun s hs => h.segment hs)
    snapshot (ValueVector.sound_new h.sound.plain count) (ValueVector.type_new c.type count) hroom
  refine ⟨v, ?_, hext.sound, hext.type_eq.trans (ValueVector.type_new _ _),
    hext.capacity_eq.trans (ValueVector.capacity_new _ _), fun k hk => ?_⟩
  · rw [scan, hnew, if_neg (by simp)]
    simp only [scanInto, Reading.result_bind, Reading.result_of, hrange, ok_bind, he]
  · obtain ⟨i, s, hl, hs, hle, hlt⟩ := locate_of_lt h.sound (show start + k < c.rows by omega)
    have hstop : s.stop = s.start + s.count := rfl
    obtain ⟨x, hx, hg⟩ := hget s (List.mem_of_getElem? hs) (start + k - s.start) (by omega) (by omega)
      (by omega)
    refine ⟨x, (value_of_locate hl source snapshot).trans hx, ?_⟩
    rw [← hg]
    congr 1
    omega

/-- **A scan of a column that gives something** gives what a reader of each row gets. -/
theorem scan_values {c : Column} {source : Source} (h : c.Legible source) {start count : Nat}
    {snapshot : Snapshot} {v : ValueVector}
    (hok : (c.scan source start count snapshot).result = .ok v) :
    v.Sound ∧ v.type = c.type ∧ v.capacity = count ∧ ∀ k, k < count →
      ∃ x, c.value source (start + k) snapshot = .ok x ∧ v.get? k = some x := by
  have hscan := hok
  unfold scan at hscan
  split at hscan
  · cases hscan
  · rename_i hnew
    rw [Reading.result_bind] at hscan
    obtain ⟨_, hrange, -⟩ := bind_eq_ok.mp hscan
    obtain ⟨v', hv', hvalues⟩ := scan_ok h (by simpa using hnew) hrange snapshot
    obtain rfl := Except.ok.inj (hv'.symm.trans hok)
    exact hvalues

end Column
end ColumnStore
