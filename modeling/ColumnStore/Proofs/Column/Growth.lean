/-
# Adding rows to a column

Updates and statistics have no part in how rows are added: what comes of it depends on the values
and on the column without them (`append_congr`).
-/

import ColumnStore.Proofs.Vector.Slots
import ColumnStore.Segment.Column

namespace ColumnStore

/-! ## Columns without updates -/

/-- Where values are, for one who only reads them. -/
def SegmentData.bare : SegmentData → SegmentData
  | .stored v => .stored { v with blocks := { v.blocks with writable := false } }
  | .buffer v => .buffer v
  | .sealed image v => .sealed image v

namespace Segment

/-- A segment without its updates and statistics. -/
def bare (s : Segment) : Segment :=
  { s with statistics := { type := s.type }, data := s.data.bare, overlay := {} }

theorem bare_eq_iff {s s' : Segment} :
    s.bare = s'.bare ↔ s.type = s'.type ∧ s.start = s'.start ∧ s.count = s'.count ∧
      s.capacity = s'.capacity ∧ s.data.bare = s'.data.bare := by
  obtain ⟨type, start, count, capacity, statistics, data, overlay⟩ := s
  obtain ⟨type', start', count', capacity', statistics', data', overlay'⟩ := s'
  simp only [bare, Segment.mk.injEq, and_true]
  constructor
  · rintro ⟨rfl, rfl, rfl, rfl, -, hd⟩
    exact ⟨rfl, rfl, rfl, rfl, hd⟩
  · rintro ⟨rfl, rfl, rfl, rfl, hd⟩
    exact ⟨rfl, rfl, rfl, rfl, rfl, hd⟩

theorem data_of_bare_buffer {d : SegmentData} {v : ValueVector} (h : d.bare = .buffer v) :
    d = .buffer v := by
  cases d <;> first | exact h | cases h

theorem isFull_congr {s s' : Segment} (h : s.bare = s'.bare) : s.isFull = s'.isFull := by
  obtain ⟨-, -, hc, hcap, -⟩ := bare_eq_iff.mp h
  simp only [isFull, hc, hcap]

theorem isOpen_congr {s s' : Segment} (h : s.bare = s'.bare) : s.isOpen = s'.isOpen := by
  obtain ⟨-, -, -, -, hd⟩ := bare_eq_iff.mp h
  unfold isOpen
  cases hs : s.data <;> cases hs' : s'.data <;> first | rfl | (rw [hs, hs'] at hd; cases hd)

/-- **What filling does depends on the values alone.** -/
theorem fill_congr {source source' : ValueVector} {values : List Scalar} {rows rows' : Selection}
    (hl : ValueVector.Lists source rows values) (hl' : ValueVector.Lists source' rows' values)
    (i : Nat) (buffer : ValueVector) (t t' : Statistics) :
    (fill source i buffer t rows).1 = (fill source' i buffer t' rows').1 ∧
      (fill source i buffer t rows).2.1 = (fill source' i buffer t' rows').2.1 := by
  induction values generalizing rows rows' i buffer t t' with
  | nil =>
    obtain rfl := List.map_eq_nil_iff.mp hl
    obtain rfl := List.map_eq_nil_iff.mp hl'
    exact ⟨rfl, rfl⟩
  | cons x values ih =>
    cases rows with
    | nil => simp [ValueVector.Lists] at hl
    | cons row rest =>
      cases rows' with
      | nil => simp [ValueVector.Lists] at hl'
      | cons row' rest' =>
        simp only [ValueVector.Lists, List.map_cons, List.cons.injEq] at hl hl'
        unfold fill
        rw [ValueVector.copySlot_eq hl.1, ValueVector.copySlot_eq hl'.1]
        rcases buffer.set i x with ⟨_ | ⟨⟨⟩⟩, buffer'⟩
        · exact ⟨rfl, rfl⟩
        · dsimp only
          cases buffer'.get? i with
          | none => exact ⟨rfl, rfl⟩
          | some y => exact ih hl.2 hl'.2 _ _ _ _

/-- **What is added to a segment depends on the values alone.** -/
theorem append_congr {s s' : Segment} (h : s.bare = s'.bare) {source source' : ValueVector}
    {rows rows' : Selection} {values : List Scalar} (hl : ValueVector.Lists source rows values)
    (hl' : ValueVector.Lists source' rows' values) :
    (s.append source rows).1 = (s'.append source' rows').1 ∧
      (s.append source rows).2.bare = (s'.append source' rows').2.bare := by
  obtain ⟨ht, hs, hc, hcap, hd⟩ := bare_eq_iff.mp h
  unfold append
  cases hdata : s.data with
  | buffer v =>
    have hdata' : s'.data = .buffer v := data_of_bare_buffer (by rw [← hd, hdata]; rfl)
    rw [hdata']
    have hlen : rows.length = rows'.length := by
      have h1 := congrArg List.length hl
      have h2 := congrArg List.length hl'
      simp only [List.length_map] at h1 h2
      omega
    have htake : ∀ {v : ValueVector} {rows : Selection} (n : Nat), v.Lists rows values →
        v.Lists (rows.take n) (values.take n) := fun n hv => by
      simp only [ValueVector.Lists, List.map_take]
      rw [hv]
    dsimp only
    rw [hc, hcap]
    have hfill := fill_congr (htake (s'.capacity - s'.count) hl)
      (htake (s'.capacity - s'.count) hl') s'.count v s.statistics s'.statistics
    rcases he : fill source s'.count v s.statistics (rows.take (s'.capacity - s'.count)) with
      ⟨r, b, t⟩
    rcases he' : fill source' s'.count v s'.statistics (rows'.take (s'.capacity - s'.count)) with
      ⟨r', b', t'⟩
    rw [he, he'] at hfill
    obtain ⟨rfl, rfl⟩ := hfill
    cases r with
    | error e => exact ⟨rfl, bare_eq_iff.mpr ⟨ht, hs, rfl, rfl, rfl⟩⟩
    | ok u =>
      refine ⟨?_, bare_eq_iff.mpr ⟨ht, hs, ?_, rfl, rfl⟩⟩ <;> simp only [List.length_take, hlen]
  | sealed image v =>
    rw [hdata] at hd
    cases hdata' : s'.data with
    | sealed image' v' => exact ⟨rfl, h⟩
    | _ => rw [hdata'] at hd; cases hd
  | stored v =>
    rw [hdata] at hd
    cases hdata' : s'.data with
    | stored v' => exact ⟨rfl, h⟩
    | _ => rw [hdata'] at hd; cases hd

/-- **How a segment is sealed depends on its values alone.** -/
theorem toSealed_congr {s s' : Segment} (h : s.bare = s'.bare) (preferred : Scheme) :
    (s.toSealed preferred).map bare = (s'.toSealed preferred).map bare := by
  obtain ⟨ht, hs, hc, hcap, hd⟩ := bare_eq_iff.mp h
  unfold toSealed
  cases hdata : s.data with
  | buffer v =>
    have hdata' : s'.data = .buffer v := data_of_bare_buffer (by rw [← hd, hdata]; rfl)
    rw [hdata']
    dsimp only
    rw [hc]
    cases SegmentImage.encode v s'.count preferred with
    | error e => rfl
    | ok image => exact congrArg Except.ok (bare_eq_iff.mpr ⟨ht, hs, rfl, rfl, rfl⟩)
  | sealed image v =>
    rw [hdata] at hd
    cases hdata' : s'.data with
    | sealed image' v' => exact congrArg Except.ok h
    | _ => rw [hdata'] at hd; cases hd
  | stored v =>
    rw [hdata] at hd
    cases hdata' : s'.data with
    | stored v' => exact congrArg Except.ok h
    | _ => rw [hdata'] at hd; cases hd

end Segment

namespace Column

/-- A column without its updates and statistics. -/
def bare (c : Column) : Column := { c with segments := c.segments.map Segment.bare }

theorem bare_eq_iff {c c' : Column} :
    c.bare = c'.bare ↔ c.type = c'.type ∧ c.policy = c'.policy ∧ c.rows = c'.rows ∧
      c.segments.map Segment.bare = c'.segments.map Segment.bare := by
  simp only [bare, Column.mk.injEq]
  tauto

/-- **The segment to fill depends on the values alone.** -/
theorem openSegment_congr {c c' : Column} (h : c.bare = c'.bare) :
    c.openSegment.map (fun p => (p.1.map Segment.bare, p.2.bare)) =
      c'.openSegment.map (fun p => (p.1.map Segment.bare, p.2.bare)) := by
  obtain ⟨ht, hp, hr, hs⟩ := bare_eq_iff.mp h
  have hnew : ∀ front front' : List Segment, front.map Segment.bare = front'.map Segment.bare →
      ((Segment.new c.type c.rows c.policy.capacity).map (front, ·)).map
          (fun p => (p.1.map Segment.bare, p.2.bare)) =
        ((Segment.new c'.type c'.rows c'.policy.capacity).map (front', ·)).map
          (fun p => (p.1.map Segment.bare, p.2.bare)) := by
    intro front front' hf
    rw [ht, hr, hp]
    cases Segment.new c'.type c'.rows c'.policy.capacity with
    | error e => rfl
    | ok s => exact congrArg Except.ok (Prod.ext hf rfl)
  unfold openSegment
  rcases List.eq_nil_or_concat c.segments with hc | ⟨front, s, hc⟩ <;>
    rcases List.eq_nil_or_concat c'.segments with hc' | ⟨front', s', hc'⟩
  · rw [hc, hc']
    exact hnew [] [] rfl
  · simp [hc, hc'] at hs
  · simp [hc, hc'] at hs
  · obtain ⟨hfront, hlast⟩ : front.map Segment.bare = front'.map Segment.bare ∧
        s.bare = s'.bare := by
      simpa [hc, hc', List.append_inj_left', List.concat_eq_append] using hs
    have hcond : (s.isFull || !s.isOpen) = (s'.isFull || !s'.isOpen) := by
      rw [Segment.isFull_congr hlast, Segment.isOpen_congr hlast]
    simp only [hc, hc', List.concat_eq_append, List.getLast?_append, List.getLast?_singleton,
      Option.some_or, hcond, List.dropLast_concat]
    split
    · exact hnew _ _ (by simp [hfront, hlast])
    · exact congrArg Except.ok (Prod.ext hfront hlast)

/-- Adds rows to one segment, and says how many. -/
def fillSegment (c : Column) (source : ValueVector) (rows : Selection) :
    Attempt StorageError Column Nat :=
  match c.openSegment with
  | .error e => (.error e, c)
  | .ok (before, s) =>
    match s.append source rows with
    | (.error e, s) => (.error e, { c with segments := before ++ [s] })
    | (.ok taken, s) =>
      match if s.isFull then s.toSealed c.policy.compression else .ok s with
      | .error e => (.error e, { c with segments := before ++ [s], rows := c.rows + taken })
      | .ok s => (.ok taken, { c with segments := before ++ [s], rows := c.rows + taken })

/-- Rows are added segment by segment. -/
theorem appendRows_eq (c : Column) (source : ValueVector) {rows : Selection} (h : rows ≠ []) :
    c.appendRows source rows =
      match c.fillSegment source rows with
      | (.error e, c) => (.error e, c)
      | (.ok taken, c) =>
        if taken = 0 then (.ok (), c) else c.appendRows source (rows.drop taken) := by
  rw [appendRows, dif_neg h, fillSegment]
  rcases c.openSegment with e | ⟨front, s⟩
  · rfl
  dsimp only
  rcases s.append source rows with ⟨e | taken, t⟩
  · rfl
  dsimp only
  cases (if t.isFull then t.toSealed c.policy.compression else .ok t) <;> rfl

/-- **What is added to one segment depends on the values alone.** -/
theorem fillSegment_congr {c c' : Column} (h : c.bare = c'.bare) {source source' : ValueVector}
    {rows rows' : Selection} {values : List Scalar} (hl : ValueVector.Lists source rows values)
    (hl' : ValueVector.Lists source' rows' values) :
    (c.fillSegment source rows).1 = (c'.fillSegment source' rows').1 ∧
      (c.fillSegment source rows).2.bare = (c'.fillSegment source' rows').2.bare := by
  obtain ⟨ht, hp, hr, hs⟩ := bare_eq_iff.mp h
  have hjoin : ∀ {a b : List Segment} {x y : Segment}, a.map Segment.bare = b.map Segment.bare →
      x.bare = y.bare → (a ++ [x]).map Segment.bare = (b ++ [y]).map Segment.bare := by
    intro a b x y hab hxy
    simp [hab, hxy]
  have hopen := openSegment_congr h
  unfold fillSegment
  generalize c.openSegment = x, c'.openSegment = y at hopen ⊢
  rcases x with e | ⟨front, s⟩ <;> rcases y with e' | ⟨front', s'⟩ <;>
    simp only [Except.map, Except.error.injEq, Except.ok.injEq, Prod.mk.injEq,
      reduceCtorEq] at hopen
  · exact ⟨congrArg Except.error hopen, h⟩
  obtain ⟨hfront, hseg⟩ := hopen
  obtain ⟨hresult, hbare⟩ := Segment.append_congr hseg hl hl'
  dsimp only
  generalize s.append source rows = x, s'.append source' rows' = y at hresult hbare ⊢
  rcases x with ⟨e | taken, t⟩ <;> rcases y with ⟨e' | taken', t'⟩ <;>
    simp only [Except.error.injEq, Except.ok.injEq, reduceCtorEq] at hresult hbare
  · exact ⟨congrArg Except.error hresult, bare_eq_iff.mpr ⟨ht, hp, hr, hjoin hfront hbare⟩⟩
  subst hresult
  have hseal : (if t.isFull then t.toSealed c.policy.compression else .ok t).map Segment.bare =
      (if t'.isFull then t'.toSealed c'.policy.compression else .ok t').map Segment.bare := by
    rw [Segment.isFull_congr hbare, hp]
    split
    · exact Segment.toSealed_congr hbare _
    · exact congrArg Except.ok hbare
  have hrows : c.rows + taken = c'.rows + taken := by rw [hr]
  dsimp only
  generalize (if t.isFull then t.toSealed c.policy.compression else .ok t) = x,
    (if t'.isFull then t'.toSealed c'.policy.compression else .ok t') = y at hseal ⊢
  rcases x with e | u <;> rcases y with e' | u' <;>
    simp only [Except.map, Except.error.injEq, Except.ok.injEq, reduceCtorEq] at hseal
  · exact ⟨congrArg Except.error hseal,
      bare_eq_iff.mpr ⟨ht, hp, hrows, hjoin hfront hbare⟩⟩
  · exact ⟨rfl, bare_eq_iff.mpr ⟨ht, hp, hrows, hjoin hfront hseal⟩⟩

/-- **What is added to a column depends on the values alone.** -/
theorem appendRows_congr {c c' : Column} (h : c.bare = c'.bare) {source source' : ValueVector}
    {rows rows' : Selection} {values : List Scalar} (hl : ValueVector.Lists source rows values)
    (hl' : ValueVector.Lists source' rows' values) :
    (c.appendRows source rows).1 = (c'.appendRows source' rows').1 ∧
      (c.appendRows source rows).2.bare = (c'.appendRows source' rows').2.bare := by
  induction hn : values.length using Nat.strongRecOn generalizing c c' rows rows' values with
  | ind n ih =>
    have hlen : rows.length = values.length := by simpa using congrArg List.length hl
    have hlen' : rows'.length = values.length := by simpa using congrArg List.length hl'
    by_cases hnil : values = []
    · obtain rfl : rows = [] := List.length_eq_zero_iff.mp (by simp [hlen, hnil])
      obtain rfl : rows' = [] := List.length_eq_zero_iff.mp (by simp [hlen', hnil])
      rw [appendRows, appendRows]
      exact ⟨rfl, h⟩
    have hpos := List.length_pos_iff.mpr hnil
    rw [appendRows_eq c source (List.length_pos_iff.mp (by omega)),
      appendRows_eq c' source' (List.length_pos_iff.mp (by omega))]
    obtain ⟨hresult, hbare⟩ := fillSegment_congr h hl hl'
    generalize c.fillSegment source rows = x, c'.fillSegment source' rows' = y at hresult hbare ⊢
    rcases x with ⟨e | taken, d⟩ <;> rcases y with ⟨e' | taken', d'⟩ <;>
      simp only [Except.error.injEq, Except.ok.injEq, reduceCtorEq] at hresult hbare
    · exact ⟨congrArg Except.error hresult, hbare⟩
    subst hresult
    dsimp only
    by_cases htaken : taken = 0
    · rw [if_pos htaken, if_pos htaken]
      exact ⟨rfl, hbare⟩
    · rw [if_neg htaken, if_neg htaken]
      refine ih (values.drop taken).length ?_ hbare ?_ ?_ rfl
      · simp only [List.length_drop]
        omega
      · simp only [ValueVector.Lists, List.map_drop]
        rw [hl]
      · simp only [ValueVector.Lists, List.map_drop]
        rw [hl']

/-- **Equal values are added in the same way to columns that differ in their updates.** -/
theorem append_congr {c c' : Column} (h : c.bare = c'.bare) {source source' : ValueVector}
    (ht : source.type = source'.type) {rows rows' : Selection} {values : List Scalar}
    (hl : ValueVector.Lists source rows values) (hl' : ValueVector.Lists source' rows' values) :
    (c.append source rows).1 = (c'.append source' rows').1 ∧
      (c.append source rows).2.bare = (c'.append source' rows').2.bare := by
  have htype := (bare_eq_iff.mp h).1
  unfold append
  rw [ht, htype]
  split
  · exact ⟨rfl, h⟩
  · exact appendRows_congr h hl hl'

end Column
end ColumnStore
