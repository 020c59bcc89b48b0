/-
# How a column is cut into segments

Rows are added pass by pass: a pass fills the last segment, or a new one behind it if that takes no
rows, and seals it when it is full.  So behind the segments that a column starts with come full ones
and at most one that has room left (`Column.Cut`), and where they begin and end is known from the
number of rows alone (`Cut.boundaries_eq`).

A pass takes a row at least, so rows are added in as many passes as there are rows, at most
(`Cut.addsIn`).
-/

import ColumnStore.Proofs.Column.Appending
import ColumnStore.Proofs.Segment.Lengths
import ColumnStore.Proofs.Table.Shape

namespace ColumnStore

/-! ## One segment -/

namespace ValueVector

/-- **Copying is refused** only for a row that is not there, if all values fit and have a slot. -/
theorem copyRows_refused {v given : ValueVector} (h : v.Sound)
    (hfits : ∀ i x, given.get? i = some x → x.fits v.type = true) {start : Nat} {rows : Selection}
    (hroom : start + rows.length ≤ v.capacity) {e : VectorError}
    (he : (v.copyRows start given rows).1 = .error e) :
    e = .outOfRange ∧ ∃ row ∈ rows, given.get? row = none := by
  induction rows generalizing v start with
  | nil => cases he
  | cons row rest ih =>
    simp only [List.length_cons] at hroom
    unfold copyRows at he
    cases hg : given.get? row with
    | none =>
      refine ⟨?_, row, List.mem_cons_self, hg⟩
      rw [copySlot, if_neg (by omega), hg] at he
      exact (Except.error.inj he).symm
    | some x =>
      obtain ⟨v', hset, hs, ht, hc, -, -⟩ := set_ok h (i := start) (by omega) (hfits row x hg)
      rw [copySlot_eq hg, hset] at he
      obtain ⟨rfl, r, hr, hnone⟩ := ih hs (fun i y hy => ht ▸ hfits i y hy) (by omega) he
      exact ⟨rfl, r, List.mem_cons_of_mem _ hr, hnone⟩

end ValueVector

namespace Segment

variable {s : Segment} {v given : ValueVector} {rows : Selection}

/-- Rows that there is no room for do not matter. -/
theorem append_take (s : Segment) (given : ValueVector) (rows : Selection) :
    s.append given rows = s.append given (rows.take (s.capacity - s.count)) := by
  unfold append
  cases s.data <;> simp only [List.take_take, Nat.min_self]

theorem capacity_append (s : Segment) (given : ValueVector) (rows : Selection) :
    (s.append given rows).2.capacity = s.capacity := by
  unfold append
  split
  · dsimp only
    split <;> rfl
  · rfl

/-- **What comes of rows for a segment that can be filled:** those that there is room for are added,
or one of them is not there. -/
theorem append_cases (h : s.Fills v) (hfits : ∀ i x, given.get? i = some x → x.fits s.type = true)
    (rows : Selection) :
    (∃ values t, given.Lists (rows.take (s.capacity - s.count)) values ∧
        s.append given rows = (.ok values.length, t) ∧ (∃ v', t.Fills v') ∧
        Column.Extended s t values ∧ t.capacity = s.capacity) ∨
      ∃ t, s.append given rows = (.error (.vector .outOfRange), t) ∧
        ∃ row ∈ rows, given.get? row = none := by
  obtain ⟨hv, htype, hc, hle⟩ := h.vector
  have hcapacity := capacity_append s given rows
  generalize hfront : rows.take (s.capacity - s.count) = front
  have hlength : front.length ≤ s.capacity - s.count := by
    rw [← hfront, List.length_take]
    omega
  have happend : s.append given rows = s.append given front := hfront ▸ append_take s given rows
  obtain ⟨hresult, -⟩ := fill_eq hv given s.count s.statistics front
  obtain ⟨-, hcopied⟩ := ValueVector.copyRows_cases hv s.count given front
  cases hcopy : (v.copyRows s.count given front).1 with
  | ok u =>
    obtain ⟨values, hlists, -, -, -⟩ := hcopied hcopy
    have hsame : values.length = front.length := by simpa using (congrArg List.length hlists).symm
    obtain ⟨t, ht⟩ : ∃ t, s.append given front = (.ok values.length, t) := by
      unfold append
      rw [h.data_eq]
      dsimp only
      rw [List.take_of_length_le hlength]
      rcases hfill : fill given s.count v s.statistics front with ⟨r, b, st⟩
      rw [hfill, hcopy] at hresult
      obtain rfl : r = .ok u := hresult
      exact ⟨_, by rw [hsame]⟩
    obtain ⟨-, hfills, hext⟩ := Column.extended_of_append h hlists ht
    rw [List.take_length] at hext
    rw [happend, ht] at hcapacity
    exact Or.inl ⟨values, t, hlists, happend.trans ht, hfills, hext, hcapacity⟩
  | error e =>
    obtain ⟨rfl, row, hrow, hnone⟩ :=
      ValueVector.copyRows_refused hv (htype ▸ hfits) (by omega) hcopy
    refine Or.inr ⟨(s.append given rows).2, ?_, row, List.mem_of_mem_take (hfront ▸ hrow), hnone⟩
    rw [happend]
    unfold append
    rw [h.data_eq]
    dsimp only
    rw [List.take_of_length_le hlength]
    rcases hfill : fill given s.count v s.statistics front with ⟨r, b, st⟩
    rw [hfill, hcopy] at hresult
    obtain rfl : r = .error .outOfRange := hresult
    rfl

/-- Where a segment begins and ends. -/
def bounds (s : Segment) : Nat × Nat := (s.start, s.stop)

theorem overlong_congr {s s' : Segment} (h : s.bare = s'.bare) {preferred : Scheme}
    (hs : s.Overlong preferred) : s'.Overlong preferred := by
  obtain ⟨what, n, hs⟩ := hs
  have hsealed := toSealed_congr h preferred
  rw [hs] at hsealed
  refine ⟨what, n, ?_⟩
  cases hs' : s'.toSealed preferred with
  | error e =>
    rw [hs'] at hsealed
    exact congrArg _ (Except.error.inj hsealed).symm
  | ok t =>
    rw [hs'] at hsealed
    cases hsealed

/-- A segment with as many rows as it was made for, that takes no more: it was sealed, unless it is
too long to be. -/
structure Done (policy : SegmentPolicy) (s : Segment) : Prop where
  count_eq : s.count = policy.capacity
  capacity_eq : s.capacity = s.count
  closed : s.isOpen = false ∨ s.Overlong policy.compression

/-- A segment that has rows and room left for more. -/
structure Begun (policy : SegmentPolicy) (s : Segment) : Prop where
  opened : s.isOpen = true
  capacity_eq : s.capacity = policy.capacity
  pos : 0 < s.count
  lt : s.count < s.capacity
  hasRoom : ValueVector.hasRoom s.type s.capacity = true

variable {policy : SegmentPolicy} {s' : Segment}

theorem Done.isFull_eq (h : s.Done policy) : s.isFull = true :=
  decide_eq_true (Nat.le_of_eq h.capacity_eq)

theorem Done.congr (h : s.Done policy) (hs : s.bare = s'.bare) : s'.Done policy := by
  obtain ⟨-, -, hcount, hcapacity, -⟩ := bare_eq_iff.mp hs
  refine ⟨hcount ▸ h.count_eq, hcount ▸ hcapacity ▸ h.capacity_eq, ?_⟩
  rcases h.closed with hclosed | hlong
  · exact Or.inl (isOpen_congr hs ▸ hclosed)
  · exact Or.inr (overlong_congr hs hlong)

theorem Begun.congr (h : s.Begun policy) (hs : s.bare = s'.bare) : s'.Begun policy := by
  obtain ⟨htype, -, hcount, hcapacity, -⟩ := bare_eq_iff.mp hs
  exact ⟨isOpen_congr hs ▸ h.opened, hcapacity ▸ h.capacity_eq, hcount ▸ h.pos,
    hcount ▸ hcapacity ▸ h.lt, htype ▸ hcapacity ▸ h.hasRoom⟩

/-- **A segment that rows were added to** has room for more, or is sealed, or is too long to be. -/
theorem close_cases (h : s.Fills v) (hcapacity : s.capacity = policy.capacity) (hpos : 0 < s.count)
    (hroom : ValueVector.hasRoom s.type s.capacity = true) :
    ((if s.isFull then s.toSealed policy.compression else .ok s) = .ok s ∧ s.Begun policy) ∨
      (∃ u, s.toSealed policy.compression = .ok u ∧
        (if s.isFull then s.toSealed policy.compression else .ok s) = .ok u ∧ u.Done policy) ∨
      ∃ what n, (if s.isFull then s.toSealed policy.compression else .ok s) =
        .error (.tooLarge what n) ∧ s.isOpen = true ∧ s.Done policy := by
  obtain ⟨-, -, -, hle⟩ := h.vector
  have hopened : s.isOpen = true := by rw [isOpen, h.data_eq]
  cases hfull : s.isFull with
  | false =>
    have hlt : s.count < s.capacity := by simpa [isFull] using hfull
    exact Or.inl ⟨rfl, hopened, hcapacity, hpos, hlt, hroom⟩
  | true =>
    have hcounted : s.count = policy.capacity := by
      have : s.capacity ≤ s.count := by simpa [isFull] using hfull
      omega
    rw [if_pos rfl]
    cases hu : s.toSealed policy.compression with
    | ok u =>
      obtain ⟨image, rfl, -, -⟩ := toSealed_ok h hu
      exact Or.inr (Or.inl ⟨_, rfl, rfl, hcounted, rfl, Or.inl rfl⟩)
    | error e =>
      obtain ⟨what, n, hlong⟩ := overlong_of_refused h hroom hu
      obtain rfl := Except.error.inj (hu.symm.trans hlong)
      exact Or.inr (Or.inr ⟨what, n, rfl, hopened, hcounted, by omega, Or.inr ⟨what, n, hlong⟩⟩)

end Segment

namespace Column

/-! ## All segments -/

/-- Where the segments of a column begin and end. -/
def boundaries (c : Column) : List (Nat × Nat) := c.segments.map Segment.bounds

/-- Where segments of `capacity` rows begin and end that hold the rows from `start` up to `stop`. -/
def cut (capacity start stop : Nat) : List (Nat × Nat) :=
  (List.range ((stop - start + (capacity - 1)) / capacity)).map fun k =>
    (start + k * capacity, min (start + (k + 1) * capacity) stop)

/-- The segments that a column starts with, full ones behind them, and one that is begun. -/
structure Parts (c : Column) (front full : List Segment) (tail : Option Segment) : Prop where
  segments_eq : c.segments = front ++ full ++ tail.toList
  front : ∀ s ∈ front, s.isOpen = false ∧ s.count ≤ s.capacity
  full : ∀ s ∈ full, s.Done c.policy
  tail : ∀ s ∈ tail, s.Begun c.policy

/-- A column that has grown from segments with the given boundaries, which hold the rows in front of
`base`. -/
structure Cut (old : List (Nat × Nat)) (base : Nat) (c : Column) : Prop where
  sound : c.Sound
  parts : ∃ front full tail, c.Parts front full tail ∧ front.map Segment.bounds = old ∧
    Contiguous 0 front base

/-- A column with a full segment that could not be sealed. -/
def LeftOpen (c : Column) : Prop := ∃ s ∈ c.segments, s.isOpen = true ∧ s.Done c.policy

variable {c c' : Column} {front full : List Segment} {tail : Option Segment}
  {old : List (Nat × Nat)} {base : Nat}

/-- Full segments behind each other. -/
theorem bounds_full {capacity start stop : Nat} {segments : List Segment}
    (hc : Contiguous start segments stop) (hcount : ∀ s ∈ segments, s.count = capacity) :
    stop = start + segments.length * capacity ∧
      segments.map Segment.bounds = (List.range segments.length).map fun k =>
        (start + k * capacity, start + (k + 1) * capacity) := by
  induction segments generalizing start with
  | nil => exact ⟨by simpa [Contiguous] using hc.symm, rfl⟩
  | cons s rest ih =>
    obtain ⟨hstart, hrest⟩ := hc
    have hs := hcount s List.mem_cons_self
    have hstop : s.stop = start + capacity := by rw [Segment.stop, hstart, hs]
    obtain ⟨hlast, hmap⟩ := ih hrest fun t ht => hcount t (List.mem_cons_of_mem _ ht)
    constructor
    · rw [hlast, hstop, List.length_cons, Nat.add_mul]
      omega
    · rw [List.map_cons, hmap, List.length_cons, List.range_succ_eq_map, List.map_cons, List.map_map,
        Segment.bounds, hstop, hstart]
      refine congrArg₂ List.cons (by simp) (List.map_congr_left fun k _ => ?_)
      simp only [Function.comp_apply, Nat.succ_eq_add_one, Nat.add_mul, Nat.one_mul]
      refine Prod.ext ?_ ?_ <;> simp only <;> omega

/-- The segments in front of a place in a column. -/
theorem map_range_cut {capacity base stop m : Nat} (h : base + m * capacity ≤ stop) :
    ((List.range m).map fun k => (base + k * capacity, min (base + (k + 1) * capacity) stop)) =
      (List.range m).map fun k => (base + k * capacity, base + (k + 1) * capacity) := by
  refine List.map_congr_left fun k hk => ?_
  have hle : (k + 1) * capacity ≤ m * capacity := Nat.mul_le_mul_right _ (List.mem_range.mp hk)
  rw [Nat.min_eq_left (by omega)]

theorem cut_full {capacity : Nat} (hp : 0 < capacity) (base m : Nat) :
    cut capacity base (base + m * capacity) =
      (List.range m).map fun k => (base + k * capacity, base + (k + 1) * capacity) := by
  have hcount : (base + m * capacity - base + (capacity - 1)) / capacity = m := by
    rw [Nat.add_sub_cancel_left, Nat.mul_comm, Nat.mul_add_div hp, Nat.div_eq_of_lt (by omega),
      Nat.add_zero]
  rw [cut, hcount, map_range_cut (Nat.le_refl _)]

theorem cut_begun {capacity r : Nat} (hr : 0 < r) (hlt : r < capacity) (base m : Nat) :
    cut capacity base (base + m * capacity + r) =
      ((List.range m).map fun k => (base + k * capacity, base + (k + 1) * capacity)) ++
        [(base + m * capacity, base + m * capacity + r)] := by
  have hcount : (base + m * capacity + r - base + (capacity - 1)) / capacity = m + 1 := by
    rw [show base + m * capacity + r - base + (capacity - 1) = capacity * m + (capacity + (r - 1)) by
      rw [Nat.mul_comm]; omega, Nat.mul_add_div (by omega), Nat.add_div_left _ (by omega),
      Nat.div_eq_of_lt (by omega)]
  rw [cut, hcount, List.range_succ, List.map_append, map_range_cut (by omega), List.map_singleton,
    Nat.min_eq_right (by rw [Nat.add_mul]; omega)]

/-- Segments that follow each other end at one place. -/
theorem contiguous_unique {start stop stop' : Nat} {segments : List Segment}
    (h : Contiguous start segments stop) (h' : Contiguous start segments stop') : stop = stop' := by
  induction segments generalizing start with
  | nil => exact (show start = stop from h).symm.trans h'
  | cons s rest ih => exact ih h.2 h'.2

/-- **Where segments begin and end follows from the number of rows.** -/
theorem Cut.boundaries_eq (h : c.Cut old base) (hp : 0 < c.policy.capacity) :
    c.boundaries = old ++ cut c.policy.capacity base c.rows := by
  obtain ⟨front, full, tail, hparts, hold, hfront⟩ := h.parts
  obtain ⟨middle, hbefore, htail⟩ :=
    exists_of_contiguous_append (hparts.segments_eq ▸ h.sound.contiguous)
  obtain ⟨base', hfront', hfull⟩ := exists_of_contiguous_append hbefore
  obtain rfl := contiguous_unique hfront hfront'
  obtain ⟨rfl, hbounds⟩ := bounds_full hfull fun s hs => (hparts.full s hs).count_eq
  rw [boundaries, hparts.segments_eq, List.map_append, List.map_append, hold, hbounds,
    List.append_assoc]
  refine congrArg _ ?_
  cases tail with
  | none =>
    have hrows : base + full.length * c.policy.capacity = c.rows := htail
    rw [← hrows, cut_full hp, Option.toList_none, List.map_nil, List.append_nil]
  | some s =>
    obtain ⟨-, hcapacity, hpos, hlt, -⟩ := hparts.tail s rfl
    obtain ⟨hstart, hstop⟩ := htail
    have hrows : base + full.length * c.policy.capacity + s.count = c.rows := hstart ▸ hstop
    rw [← hrows, cut_begun hpos (hcapacity ▸ hlt), Option.toList_some, List.map_singleton,
      Segment.bounds, Segment.stop, hstart]

/-! ## One pass -/

/-- **The segment that is filled** is the one that was begun, or a new one. -/
theorem Parts.openSegment (h : c.Parts front full tail) (hc : c.Sound)
    (hp : 0 < c.policy.capacity) :
    (c.openSegment = .error (.vector .outOfRange) ∧
        ValueVector.hasRoom c.type c.policy.capacity = false) ∨
      ∃ s v, c.openSegment = .ok (front ++ full, s) ∧ Opens c (front ++ full) s v ∧
        s.capacity = c.policy.capacity ∧ s.count < s.capacity ∧
        ValueVector.hasRoom s.type s.capacity = true := by
  have hclosed : ∀ s, (front ++ full).getLast? = some s → (s.isFull || !s.isOpen) = true := by
    intro s hs
    rcases List.mem_append.mp (List.mem_of_getLast? hs) with hs | hs
    · simp [(h.front s hs).1]
    · simp [(h.full s hs).isFull_eq]
  have hok : ∀ s, c.openSegment = .ok (front ++ full, s) → ∃ v, Opens c (front ++ full) s v :=
    fun s => openSegment_ok hc
  cases tail with
  | some s =>
    obtain ⟨hopened, hcapacity, -, hlt, hroom⟩ := h.tail s rfl
    have hfull : s.isFull = false := by
      simp only [Segment.isFull, decide_eq_false_iff_not]
      omega
    have ho : c.openSegment = .ok (front ++ full, s) := by
      simp [Column.openSegment, h.segments_eq, hfull, hopened]
    obtain ⟨v, hv⟩ := hok s ho
    exact Or.inr ⟨s, v, ho, hv, hcapacity, hlt, hroom⟩
  | none =>
    have hsegments : c.segments = front ++ full := by simpa using h.segments_eq
    have hnew : c.openSegment =
        (Segment.new c.type c.rows c.policy.capacity).map (front ++ full, ·) := by
      rw [Column.openSegment, hsegments]
      cases hlast : (front ++ full).getLast? with
      | none => rw [List.getLast?_eq_none_iff.mp hlast]
      | some s => simp [hclosed s hlast]
    rw [Segment.new, hc.plain] at hnew
    cases hroom : ValueVector.hasRoom c.type c.policy.capacity with
    | false =>
      left
      simpa [hroom, Except.map] using hnew
    | true =>
      rw [hroom] at hnew
      obtain ⟨v, hv⟩ := hok _ hnew
      exact Or.inr ⟨_, v, hnew, hv, rfl, hp, hroom⟩

/-- **A segment behind the full ones** extends the column, whatever becomes of it. -/
theorem Cut.extend (h : c.Cut old base) (hparts : c.Parts front full tail)
    (hold : front.map Segment.bounds = old) (hfront : Contiguous 0 front base) {s u : Segment}
    {v : ValueVector} (hopens : Opens c (front ++ full) s v) {values : List Scalar}
    (hu : Extended s u values) {full' : List Segment} {tail' : Option Segment}
    (heq : full ++ [u] = full' ++ tail'.toList) (hdone : ∀ w ∈ full', w.Done c.policy)
    (hbegun : ∀ w ∈ tail', w.Begun c.policy) :
    Grows c { c with segments := front ++ full ++ [u], rows := c.rows + values.length } values ∧
      Cut old base
        { c with segments := front ++ full ++ [u], rows := c.rows + values.length } := by
  have hgrows := grows_of_extended h.sound hopens hu
  refine ⟨hgrows, hgrows.sound, front, full', tail', ⟨?_, hparts.front, hdone, hbegun⟩, hold, hfront⟩
  simp only [List.append_assoc, heq]

/-- A new column is cut as one without rows. -/
theorem cut_new {type : ColumnType} {policy : SegmentPolicy} (h : Column.new type policy = .ok c) :
    c.Cut [] 0 := by
  obtain ⟨rfl, hsound⟩ := fresh_ok h
  refine ⟨hsound, [], [], none, ⟨rfl, ?_, ?_, ?_⟩, rfl, rfl⟩
  all_goals rintro _ ⟨⟩

/-- **A pass takes a row at least,** unless a row is not there or no segment has room. -/
theorem Cut.fillSegment (h : c.Cut old base) (hp : 0 < c.policy.capacity) {given : ValueVector}
    (hfits : ∀ i x, given.get? i = some x → x.fits c.type = true) {rows : Selection}
    (hne : rows ≠ []) :
    (c.fillSegment given rows).1 = .error (.vector .outOfRange) ∧
        (ValueVector.hasRoom c.type c.policy.capacity = false ∨
          ∃ row ∈ rows, given.get? row = none) ∨
      ∃ values d, values ≠ [] ∧ given.Lists (rows.take values.length) values ∧ Grows c d values ∧
        d.Cut old base ∧ (c.fillSegment given rows = (.ok values.length, d) ∨
          d.LeftOpen ∧ ∃ what n, c.fillSegment given rows = (.error (.tooLarge what n), d)) := by
  obtain ⟨front, full, tail, hparts, hold, hfront⟩ := h.parts
  unfold Column.fillSegment
  obtain ⟨ho, hroom⟩ | ⟨s, v, ho, hopens, hcapacity, hlt, hroom⟩ := hparts.openSegment h.sound hp
  · rw [ho]
    exact Or.inl ⟨rfl, Or.inl hroom⟩
  rw [ho]
  dsimp only
  obtain ⟨values, t, hlists, ha, ⟨v', hfills⟩, hext, hsame⟩ | ⟨t, ha, hrow⟩ :=
    Segment.append_cases hopens.fills (hopens.type_eq ▸ hfits) rows
  swap
  · rw [ha]
    exact Or.inl ⟨rfl, Or.inr hrow⟩
  rw [ha]
  dsimp only
  have hlength : values.length = min (s.capacity - s.count) rows.length := by
    simpa using (congrArg List.length hlists).symm
  have hpos : 0 < values.length := by
    have := List.length_pos_iff.mpr hne
    omega
  have hsome : values ≠ [] := List.length_pos_iff.mp hpos
  have htake : rows.take (s.capacity - s.count) = rows.take values.length := by
    rw [List.take_eq_take_iff]
    omega
  have hcount := hext.count_eq
  refine Or.inr ⟨values, ?_⟩
  have hdone : ∀ u, u.Done c.policy → ∀ w ∈ full ++ [u], w.Done c.policy := by
    intro u hu w hw
    rcases List.mem_append.mp hw with hw | hw
    · exact hparts.full w hw
    · exact List.mem_singleton.mp hw ▸ hu
  have hnone : ∀ w ∈ (none : Option Segment), w.Begun c.policy := by rintro w ⟨⟩
  obtain ⟨hclose, hbegun⟩ | ⟨u, hu, hclose, hsealed⟩ | ⟨what, n, hclose, hopened, hfilled⟩ :=
    Segment.close_cases hfills (hsame.trans hcapacity) (by omega)
      (by rw [hext.type_eq, hsame, hroom])
  all_goals rw [hclose]
  · have hbegun : ∀ w ∈ some t, w.Begun c.policy := by
      rintro w ⟨⟩
      exact hbegun
    obtain ⟨hgrows, hcut⟩ := h.extend hparts hold hfront hopens hext rfl hparts.full hbegun
    exact ⟨_, hsome, htake ▸ hlists, hgrows, hcut, Or.inl rfl⟩
  · obtain ⟨hgrows, hcut⟩ := h.extend hparts hold hfront hopens (hext.toSealed hfills hu)
      (List.append_nil _).symm (hdone u hsealed) hnone
    exact ⟨_, hsome, htake ▸ hlists, hgrows, hcut, Or.inl rfl⟩
  · obtain ⟨hgrows, hcut⟩ := h.extend hparts hold hfront hopens hext
      (List.append_nil _).symm (hdone t hfilled) hnone
    exact ⟨_, hsome, htake ▸ hlists, hgrows, hcut,
      Or.inr ⟨⟨t, List.mem_append_right _ List.mem_cons_self, hopened, hfilled⟩, what, n, rfl⟩⟩

/-! ## All passes -/

/-- **Rows are added,** all of them or those in front of the first segment that is too long, unless
one is not there or no segment has room. -/
theorem Cut.appendRows (h : c.Cut old base) (hp : 0 < c.policy.capacity) {given : ValueVector}
    (hfits : ∀ i x, given.get? i = some x → x.fits c.type = true) (rows : Selection) :
    (c.appendRows given rows).1 = .error (.vector .outOfRange) ∧
        (ValueVector.hasRoom c.type c.policy.capacity = false ∨
          ∃ row ∈ rows, given.get? row = none) ∨
      ∃ values d, given.Lists (rows.take values.length) values ∧ Grows c d values ∧
        d.Cut old base ∧ (c.appendRows given rows = (.ok (), d) ∧ values.length = rows.length ∨
          d.LeftOpen ∧ ∃ what n, c.appendRows given rows = (.error (.tooLarge what n), d)) := by
  induction hn : rows.length using Nat.strongRecOn generalizing c rows with
  | ind n ih =>
    by_cases hnil : rows = []
    · subst hnil
      rw [Column.appendRows]
      exact Or.inr ⟨[], c, rfl, .refl h.sound, h, Or.inl ⟨rfl, hn⟩⟩
    rw [appendRows_eq c given hnil]
    obtain ⟨hpanic, hwhy⟩ |
        ⟨values, d, hne, hlists, hgrows, hcut, hok | ⟨hopen, what, size, hlong⟩⟩ :=
      h.fillSegment hp hfits hnil
    · left
      refine ⟨?_, hwhy⟩
      generalize c.fillSegment given rows = filled at hpanic
      obtain ⟨r, d⟩ := filled
      obtain rfl : r = _ := hpanic
      rfl
    · rw [hok]
      dsimp only
      rw [if_neg (by simpa using hne)]
      have hpos := List.length_pos_iff.mpr hne
      have hrows := List.length_pos_iff.mpr hnil
      obtain ⟨hpanic, hwhy⟩ | ⟨more, e, hmore, hgrows', hcut', hresult⟩ :=
        ih (rows.drop values.length).length (by rw [List.length_drop]; omega) hcut
          (hgrows.policy_eq ▸ hp) (hgrows.type_eq ▸ hfits) (rows.drop values.length) rfl
      · left
        refine ⟨hpanic, ?_⟩
        rw [hgrows.type_eq, hgrows.policy_eq] at hwhy
        rcases hwhy with hroom | ⟨row, hrow, hnone⟩
        · exact Or.inl hroom
        · exact Or.inr ⟨row, List.mem_of_mem_drop hrow, hnone⟩
      · right
        refine ⟨values ++ more, e, ?_, hgrows.trans hgrows', hcut', ?_⟩
        · rw [ValueVector.Lists, List.length_append, List.take_add, List.map_append, List.map_append]
          exact congrArg₂ _ hlists hmore
        · rcases hresult with ⟨hok, hlength⟩ | hlong
          · have hle : values.length ≤ rows.length := by
              have := congrArg List.length hlists
              simp only [List.length_map, List.length_take] at this
              omega
            refine Or.inl ⟨hok, ?_⟩
            rw [List.length_append, hlength, List.length_drop]
            omega
          · exact Or.inr hlong
    · rw [hlong]
      exact Or.inr ⟨values, d, hlists, hgrows, hcut, Or.inr ⟨hopen, what, size, rfl⟩⟩

/-- Rows that are added leave a column cut as it is, whether all of them are or not. -/
theorem Cut.append (h : c.Cut old base) (hp : 0 < c.policy.capacity) {given : ValueVector}
    (hgiven : given.Typed) {rows : Selection} {r : Except StorageError Unit}
    (hok : c.append given rows = (r, c')) (hcalm : r ≠ .error (.vector .outOfRange)) :
    c'.Cut old base ∧ c'.policy = c.policy := by
  unfold Column.append at hok
  split at hok
  · exact (Prod.mk.inj hok).2 ▸ ⟨h, rfl⟩
  rename_i htype
  have hfits : ∀ i x, given.get? i = some x → x.fits c.type = true := not_not.mp htype ▸ hgiven
  obtain ⟨hpanic, -⟩ | ⟨values, d, -, hgrows, hcut, hresult⟩ := h.appendRows hp hfits rows
  · rw [hok] at hpanic
    exact absurd hpanic hcalm
  · obtain rfl : d = c' := by
      rcases hresult with ⟨hall, -⟩ | ⟨-, what, n, hlong⟩
      · exact (Prod.mk.inj (hall.symm.trans hok)).2
      · exact (Prod.mk.inj (hlong.symm.trans hok)).2
    exact ⟨hcut, hgrows.policy_eq⟩

/-- No segment is opened where there is no memory for one. -/
theorem openSegment_refused (h : c.Sound) {e : StorageError} (he : c.openSegment = .error e) :
    e = .vector .outOfRange := by
  have hnew : ∀ front : List Segment,
      (Segment.new c.type c.rows c.policy.capacity).map (front, ·) = .error e →
        e = .vector .outOfRange := by
    intro front he
    rw [Segment.new, h.plain, if_neg Bool.false_ne_true] at he
    split at he
    · exact (Except.error.inj he).symm
    · cases he
  unfold openSegment at he
  split at he
  · split at he
    · exact hnew _ he
    · cases he
  · exact hnew _ he

/-- **A pass fills the last segment,** also one that ends with a refusal, unless a row is not there or
no segment has room. -/
theorem fillSegment_tries (h : c.Sound) {given : ValueVector}
    (hfits : ∀ i x, given.get? i = some x → x.fits c.type = true) {rows : Selection}
    {r : Except StorageError Nat} (hok : c.fillSegment given rows = (r, c'))
    (hcalm : r ≠ .error (.vector .outOfRange)) :
    ∃ n values front s t u, given.Lists (rows.take n) values ∧
      Filled c c' given (rows.take n) values.length front s t u := by
  unfold fillSegment at hok
  cases ho : c.openSegment with
  | error e =>
    rw [ho] at hok
    obtain ⟨rfl, -⟩ := Prod.mk.inj hok
    exact absurd (congrArg Except.error (openSegment_refused h ho)) hcalm
  | ok found =>
    obtain ⟨front, s⟩ := found
    rw [ho] at hok
    dsimp only at hok
    obtain ⟨v, hopens⟩ := openSegment_ok h ho
    obtain ⟨values, t, hlists, ha, hfills, -, -⟩ | ⟨t, ha, -⟩ :=
      Segment.append_cases hopens.fills (hopens.type_eq ▸ hfits) rows
    · rw [ha] at hok
      dsimp only at hok
      have happended := (Segment.append_take s given rows).symm.trans ha
      cases hu : (if t.isFull then t.toSealed c.policy.compression else .ok t) with
      | error e =>
        rw [hu] at hok
        obtain ⟨-, rfl⟩ := Prod.mk.inj hok
        exact ⟨_, values, front, s, t, t, hlists, ⟨v, hopens⟩, ho, happended, hfills, Or.inl rfl, rfl⟩
      | ok u =>
        rw [hu] at hok
        obtain ⟨-, rfl⟩ := Prod.mk.inj hok
        refine ⟨_, values, front, s, t, u, hlists, ⟨v, hopens⟩, ho, happended, hfills, ?_, rfl⟩
        split at hu
        · exact Or.inr hu
        · exact Or.inl (Except.ok.inj hu).symm
    · rw [ha] at hok
      obtain ⟨rfl, -⟩ := Prod.mk.inj hok
      exact absurd rfl hcalm

/-- **What is kept whenever the last segment is filled** is kept when rows are added, however that
ends, unless a row is not there or no segment has room. -/
theorem append_tries {given : ValueVector} {P : Column → Prop}
    (hP : ∀ (c c' : Column) (front : List Segment) (s t u : Segment) (rows : Selection) (taken : Nat)
      (values : List Scalar), given.Lists rows values →
        Filled c c' given rows taken front s t u → c.Sound → P c → P c')
    (h : c.Sound) (hgiven : given.Typed) {rows : Selection} {r : Except StorageError Unit}
    (hok : c.append given rows = (r, c')) (hcalm : r ≠ .error (.vector .outOfRange)) (hc : P c) :
    P c' := by
  unfold append at hok
  split at hok
  · exact (Prod.mk.inj hok).2 ▸ hc
  rename_i htype
  rw [not_not] at htype
  have hfits : ∀ i x, given.get? i = some x → x.fits c.type = true := htype ▸ hgiven
  clear htype
  induction hn : rows.length using Nat.strongRecOn generalizing c rows with
  | ind n ih =>
    by_cases hnil : rows = []
    · rw [hnil, appendRows] at hok
      exact (Prod.mk.inj hok).2 ▸ hc
    rw [appendRows_eq c given hnil] at hok
    rcases hf : c.fillSegment given rows with ⟨pass, d⟩
    rw [hf] at hok
    have hpass : pass ≠ .error (.vector .outOfRange) := by
      rintro rfl
      exact hcalm (Prod.mk.inj hok).1.symm
    obtain ⟨k, values, front, s, t, u, hlists, hfilled⟩ := fillSegment_tries h hfits hf hpass
    have hd := hP c d front s t u _ _ values hlists hfilled h hc
    obtain ⟨-, hgrows⟩ := hfilled.grows h hlists
    cases pass with
    | error e => exact (Prod.mk.inj hok).2 ▸ hd
    | ok taken =>
      dsimp only at hok
      split at hok
      · exact (Prod.mk.inj hok).2 ▸ hd
      · have hpos := List.length_pos_iff.mpr hnil
        exact ih (rows.drop taken).length (by rw [List.length_drop]; omega) hgrows.sound hd hok
          (hgrows.type_eq ▸ hfits) rfl

/-! ## What a cut column looks like -/

/-- **At most the last segment takes rows,** unless one is too long to be sealed. -/
theorem Cut.closed (h : c.Cut old base) {s : Segment} (hs : s ∈ c.segments.dropLast) :
    s.isOpen = false ∨ s.Overlong c.policy.compression := by
  obtain ⟨front, full, tail, hparts, -, -⟩ := h.parts
  have hmem : s ∈ front ++ full := by
    rw [hparts.segments_eq] at hs
    cases tail with
    | none => exact List.dropLast_subset _ (by simpa using hs)
    | some t => simpa using hs
  rcases List.mem_append.mp hmem with hs | hs
  · exact Or.inl (hparts.front s hs).1
  · exact (hparts.full s hs).closed

/-- **No segment has more rows than it was made for.** -/
theorem Cut.count_le (h : c.Cut old base) {s : Segment} (hs : s ∈ c.segments) :
    s.count ≤ s.capacity := by
  obtain ⟨front, full, tail, hparts, -, -⟩ := h.parts
  rw [hparts.segments_eq, List.mem_append, List.mem_append] at hs
  rcases hs with (hs | hs) | hs
  · exact (hparts.front s hs).2
  · exact Nat.le_of_eq (hparts.full s hs).capacity_eq.symm
  · exact Nat.le_of_lt (hparts.tail s (by simpa using hs)).lt

/-- What can be told without updates is the same for segments that differ in them alone. -/
theorem exists_of_map_bare {segments segments' : List Segment}
    (h : segments'.map Segment.bare = segments.map Segment.bare) {s' : Segment}
    (hs : s' ∈ segments') : ∃ s ∈ segments, s.bare = s'.bare := by
  have hm : s'.bare ∈ segments.map Segment.bare := h ▸ List.mem_map_of_mem hs
  exact List.mem_map.mp hm

/-- **Updates leave the parts of a column,** and all that can be told of them without updates. -/
theorem Parts.keeps (h : c.Parts front full tail) (hk : Keeps c c') :
    ∃ front' full' tail', c'.Parts front' full' tail' ∧
      front'.map Segment.bare = front.map Segment.bare := by
  have hbare := (bare_eq_iff.mp hk.bare_eq).2.2.2
  rw [h.segments_eq, List.map_append, List.map_append] at hbare
  obtain ⟨before, back, hsegments, hbefore, hback⟩ := List.map_eq_append_iff.mp hbare
  obtain ⟨front', full', rfl, hfront', hfull'⟩ := List.map_eq_append_iff.mp hbefore
  obtain ⟨tail', rfl⟩ : ∃ tail' : Option Segment, back = tail'.toList := by
    cases tail with
    | none => exact ⟨none, List.map_eq_nil_iff.mp hback⟩
    | some s =>
      obtain ⟨t, rfl, -⟩ := List.map_eq_singleton_iff.mp hback
      exact ⟨some t, rfl⟩
  refine ⟨front', full', tail', ⟨hsegments, fun s' hs' => ?_, fun s' hs' => ?_, fun s' hs' => ?_⟩,
    hfront'⟩
  · obtain ⟨s, hs, heq⟩ := exists_of_map_bare hfront' hs'
    obtain ⟨hclosed, hle⟩ := h.front s hs
    obtain ⟨-, -, hcount, hcapacity, -⟩ := Segment.bare_eq_iff.mp heq
    exact ⟨Segment.isOpen_congr heq ▸ hclosed, hcount ▸ hcapacity ▸ hle⟩
  · obtain ⟨s, hs, heq⟩ := exists_of_map_bare hfull' hs'
    exact hk.policy_eq ▸ (h.full s hs).congr heq
  · obtain ⟨s, hs, heq⟩ := exists_of_map_bare hback (Option.mem_toList.mpr hs')
    exact hk.policy_eq ▸ (h.tail s (Option.mem_toList.mp hs)).congr heq

theorem contiguous_congr {start stop : Nat} {segments segments' : List Segment}
    (h : Contiguous start segments stop)
    (hb : segments'.map Segment.bounds = segments.map Segment.bounds) :
    Contiguous start segments' stop := by
  induction segments generalizing start segments' with
  | nil =>
    obtain rfl := List.map_eq_nil_iff.mp hb
    exact h
  | cons s rest ih =>
    obtain ⟨s', rest', rfl, hs, hrest⟩ := List.map_eq_cons_iff.mp hb
    obtain ⟨hstart, hstop⟩ := Prod.mk.inj hs
    exact ⟨hstart.trans h.1, hstop ▸ ih h.2 hrest⟩

/-- **Updates leave a column cut as it is.** -/
theorem Cut.keeps (h : c.Cut old base) (hk : Keeps c c') : c'.Cut old base := by
  obtain ⟨front, full, tail, hparts, hold, hfront⟩ := h.parts
  obtain ⟨front', full', tail', hparts', hbare⟩ := hparts.keeps hk
  have hbounds : front'.map Segment.bounds = front.map Segment.bounds := by
    have hfun : Segment.bounds = Segment.bounds ∘ Segment.bare := rfl
    rw [hfun, ← List.map_map, ← List.map_map, hbare]
  exact ⟨hk.sound, front', full', tail', hparts', hbounds.trans hold,
    contiguous_congr hfront hbounds⟩

end Column
end ColumnStore
