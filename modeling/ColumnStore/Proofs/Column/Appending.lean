/-
# Rows at the end of a column

Rows are added by passes that fill the last segment, each time with a new one if it was full
(`append_induction`).  They come behind the old ones, which keep their values and their versions
(`append_ok`).

The bytes of a segment that was filled in memory are those of a vector with its values
(`Column.Imaged`).  Whoever reads them from blocks gets these values again, up to values that are the
same (`Segment.Imaged.load`).
-/

import ColumnStore.Proofs.Column.Values
import ColumnStore.Proofs.Segment.Encoding
import ColumnStore.Proofs.Storage.Honesty

namespace ColumnStore
namespace Column

/-! ## Rows at the end -/

theorem stop_le_of_contiguous {start stop : Nat} {segments : List Segment}
    (h : Contiguous start segments stop) {s : Segment} (hs : s ∈ segments) : s.stop ≤ stop := by
  induction segments generalizing start with
  | nil => cases hs
  | cons t rest ih =>
    rcases List.mem_cons.mp hs with rfl | hs
    · exact h.2.le
    · exact ih h.2 hs

/-- Rows of the first segments are found there, whatever follows. -/
theorem locate_front {front : List Segment} {middle row : Nat}
    (h : Contiguous 0 front middle) (hrow : row < middle) :
    ∃ i s, ∀ (c : Column) (back : List Segment), c.segments = front ++ back → row < c.rows →
      c.locate row = .ok (i, s, row - s.start) := by
  obtain ⟨i, s, hi, hs, -, -⟩ := findIdx?_of_contiguous h (Nat.zero_le row) hrow
  refine ⟨i, s, fun c back hc hlt => ?_⟩
  have hlen : i < front.length := (List.getElem?_eq_some_iff.mp hs).1
  simp only [locate, segmentIndex?, if_neg (show ¬c.rows ≤ row by omega), hc,
    List.findIdx?_append, hi, Option.some_or, List.getElem?_append_left hlen, hs]

/-- Rows of the last segment are found there. -/
theorem locate_last {c : Column} {front : List Segment} {s : Segment} {row : Nat}
    (hc : c.segments = front ++ [s]) (h : Contiguous 0 front s.start) (hlo : s.start ≤ row)
    (hhi : row < s.stop) (hrow : row < c.rows) :
    c.locate row = .ok (front.length, s, row - s.start) := by
  have hnone : front.findIdx? (row < ·.stop) = none := by
    rw [List.findIdx?_eq_none_iff]
    intro t ht
    have := stop_le_of_contiguous h ht
    simp only [decide_eq_false_iff_not]
    omega
  simp [locate, segmentIndex?, if_neg (show ¬c.rows ≤ row by omega), hc,
    List.findIdx?_append, hnone, List.findIdx?_cons, hhi]

/-- A column with rows added at the end. -/
structure Grows (c c' : Column) (values : List Scalar) : Prop where
  sound : c'.Sound
  type_eq : c'.type = c.type
  policy_eq : c'.policy = c.policy
  rows_eq : c'.rows = c.rows + values.length
  chain_eq : ∀ r, c'.chain r = c.chain r
  under_old : ∀ source r, r < c.rows → c'.under source r = c.under source r
  under_new : ∀ source k x, values[k]? = some x → c'.under source (c.rows + k) = .ok x

theorem Grows.refl {c : Column} (h : c.Sound) : Grows c c [] :=
  ⟨h, rfl, rfl, rfl, fun _ => rfl, fun _ _ _ => rfl, fun _ k x hk => by simp at hk⟩

theorem Grows.trans {a b c : Column} {values more : List Scalar} (h : Grows a b values)
    (h' : Grows b c more) : Grows a c (values ++ more) where
  sound := h'.sound
  type_eq := h'.type_eq.trans h.type_eq
  policy_eq := h'.policy_eq.trans h.policy_eq
  rows_eq := by rw [h'.rows_eq, h.rows_eq, List.length_append, Nat.add_assoc]
  chain_eq r := (h'.chain_eq r).trans (h.chain_eq r)
  under_old source r hr :=
    (h'.under_old source r (by have := h.rows_eq; omega)).trans (h.under_old source r hr)
  under_new source k x hk := by
    have hrows := h.rows_eq
    rcases Nat.lt_or_ge k values.length with hlt | hge
    · rw [List.getElem?_append_left hlt] at hk
      rw [h'.under_old source _ (by omega)]
      exact h.under_new source k x hk
    · rw [List.getElem?_append_right hge] at hk
      have := h'.under_new source _ x hk
      rwa [hrows, show a.rows + values.length + (k - values.length) = a.rows + k by omega] at this

/-- **A new column** is sound and has no segments. -/
theorem fresh_ok {type : ColumnType} {policy : SegmentPolicy} {c : Column}
    (hok : Column.new type policy = .ok c) : c = { type, policy } ∧ c.Sound := by
  unfold Column.new at hok
  split at hok
  · cases hok
  · rename_i hplain
    obtain rfl := Except.ok.inj hok
    exact ⟨rfl, Bool.eq_false_iff.mpr hplain, rfl, fun s hs => absurd hs List.not_mem_nil⟩

theorem new_ok {t : ColumnType} {start capacity : Nat} {s : Segment}
    (h : Segment.new t start capacity = .ok s) :
    t.isNested = false ∧
      s = { type := t, start, count := 0, capacity, statistics := { type := t },
            data := .buffer (.new t capacity) } := by
  unfold Segment.new at h
  split at h
  · cases h
  · rename_i hn
    split at h <;> cases h
    exact ⟨Bool.eq_false_iff.mpr hn, rfl⟩

theorem fills_new {t : ColumnType} {start capacity : Nat} {s : Segment}
    (h : Segment.new t start capacity = .ok s) : s.Fills (.new t capacity) := by
  obtain ⟨ht, rfl⟩ := new_ok h
  exact ⟨⟨List.Pairwise.nil, fun _ _ => rfl, ValueVector.sound_new ht _, ValueVector.type_new _ _,
    ValueVector.capacity_new _ _, Nat.zero_le _⟩, rfl⟩

/-- A segment at the end of a column that can be filled, with the segments in front of it. -/
structure Opens (c : Column) (front : List Segment) (s : Segment) (v : ValueVector) : Prop where
  fills : s.Fills v
  type_eq : s.type = c.type
  front_sound : ∀ t ∈ front, t.Sound ∧ t.type = c.type
  front_contiguous : Contiguous 0 front s.start
  stop_eq : s.stop = c.rows
  room : 0 < c.policy.capacity → s.count < s.capacity
  /-- It is the last segment, or an empty one behind that. -/
  segments_eq : c.segments = front ++ [s] ∨ c.segments = front ∧ s.start = c.rows

/-- **There is a segment to fill at the end.** -/
theorem openSegment_ok {c : Column} (h : c.Sound) {front : List Segment} {s : Segment}
    (hok : c.openSegment = .ok (front, s)) : ∃ v, Opens c front s v := by
  have hnew : (Segment.new c.type c.rows c.policy.capacity).map (c.segments, ·) =
      .ok (front, s) → ∃ v, Opens c front s v := by
    intro hok
    cases hn : Segment.new c.type c.rows c.policy.capacity with
    | error e => rw [hn] at hok; cases hok
    | ok t =>
      rw [hn] at hok
      obtain ⟨rfl, rfl⟩ : c.segments = front ∧ t = s := by simpa [Except.map] using hok
      have hf := fills_new hn
      obtain ⟨-, rfl⟩ := new_ok hn
      exact ⟨_, hf, rfl, h.segment, h.contiguous, rfl, id, Or.inr ⟨rfl, rfl⟩⟩
  unfold openSegment at hok
  rcases List.eq_nil_or_concat c.segments with hc | ⟨before, t, hc⟩
  · refine hnew ?_
    simpa [hc] using hok
  · rw [List.concat_eq_append] at hc
    simp only [hc, List.getLast?_append, List.getLast?_singleton, Option.some_or,
      List.dropLast_concat] at hok
    split at hok
    · exact hnew (hc ▸ hok)
    · rename_i hcond
      simp only [Bool.or_eq_true, Bool.not_eq_true, not_or, Bool.not_eq_eq_eq_not,
        Bool.not_true] at hcond
      obtain ⟨rfl, rfl⟩ : before = front ∧ t = s := by simpa using hok
      obtain ⟨middle, hfront, hlast⟩ := exists_of_contiguous_append (hc ▸ h.contiguous)
      obtain ⟨hs, ht⟩ := h.segment t (by simp [hc])
      obtain ⟨hstart, hstop⟩ := hlast
      have hfull : t.count < t.capacity := by
        have := hcond.1
        simp only [Segment.isFull, decide_eq_false_iff_not] at this
        omega
      cases hd : t.data with
      | buffer v =>
        exact ⟨v, ⟨hs, hd⟩, ht, fun u hu => h.segment u (by simp [hc, hu]), hstart ▸ hfront, hstop,
          fun _ => hfull, Or.inl hc⟩
      | _ => simp [Segment.isOpen, hd] at hcond

/-- **The segments that are filled and passed over** are segments of the column, but for a new one. -/
theorem mem_of_openSegment {c : Column} {front : List Segment} {s : Segment}
    (hok : c.openSegment = .ok (front, s)) : (∀ t ∈ front, t ∈ c.segments) ∧
      (s ∈ c.segments ∨ Segment.new c.type c.rows c.policy.capacity = .ok s) := by
  unfold openSegment at hok
  cases hlast : c.segments.getLast? with
  | none =>
    rw [hlast] at hok
    obtain ⟨t, hnew, heq⟩ := map_eq_ok.mp hok
    obtain ⟨rfl, rfl⟩ := Prod.mk.inj heq
    exact ⟨fun t ht => absurd ht List.not_mem_nil, Or.inr hnew⟩
  | some t =>
    rw [hlast] at hok
    dsimp only at hok
    split at hok
    · obtain ⟨u, hnew, heq⟩ := map_eq_ok.mp hok
      obtain ⟨rfl, rfl⟩ := Prod.mk.inj heq
      exact ⟨fun _ => id, Or.inr hnew⟩
    · obtain ⟨rfl, rfl⟩ := Prod.mk.inj (Except.ok.inj hok)
      exact ⟨fun u hu => List.dropLast_subset _ hu, Or.inl (List.mem_of_getLast? hlast)⟩

/-- The last segment of a column with rows added to it. -/
structure Extended (s t : Segment) (values : List Scalar) : Prop where
  sound : t.Sound
  type_eq : t.type = s.type
  start_eq : t.start = s.start
  count_eq : t.count = s.count + values.length
  overlay_eq : t.overlay = s.overlay
  under_old : ∀ source i, i < s.count → t.under source i = s.under source i
  under_new : ∀ source k x, values[k]? = some x → t.under source (s.count + k) = .ok x

/-- **A segment that is filled extends what it was.** -/
theorem extended_of_append {s : Segment} {v : ValueVector} (h : s.Fills v) {source : ValueVector}
    {rows : Selection} {values : List Scalar} (hl : ValueVector.Lists source rows values)
    {taken : Nat} {t : Segment} (hok : s.append source rows = (.ok taken, t)) :
    taken = min (s.capacity - s.count) values.length ∧ (∃ v', t.Fills v') ∧
      Extended s t (values.take taken) := by
  obtain ⟨v', hfills, htype, hstart, hcount, hcap, hoverlay, hn, hvold, hvnew⟩ :=
    Segment.append_ok h hl taken (by rw [hok])
  rw [hok] at hfills htype hstart hcount hcap hoverlay
  obtain ⟨hv, -, hvc, hle⟩ := h.vector
  refine ⟨hn, ⟨v', hfills⟩, hfills.sound, htype, hstart, ?_, hoverlay, fun source i hi => ?_,
    fun source k x hk => ?_⟩
  · rw [hcount, List.length_take]
    omega
  · obtain ⟨x, hx, -⟩ := ValueVector.get?_of_lt hv (i := i) (by omega)
    rw [Segment.under_buffer h.data_eq source i hx,
      Segment.under_buffer hfills.data_eq source i ((hvold i hi).trans hx)]
  · have hk' := (List.getElem?_eq_some_iff.mp hk).1
    rw [List.length_take] at hk'
    rw [List.getElem?_take_of_lt (by omega)] at hk
    exact Segment.under_buffer hfills.data_eq source _ ((hvnew k (by omega)).trans hk)

/-- **A segment that is sealed still extends what it was.** -/
theorem Extended.toSealed {s t u : Segment} {v : ValueVector} {values : List Scalar}
    (h : Extended s t values) (hf : t.Fills v) {preferred : Scheme}
    (hok : t.toSealed preferred = .ok u) : Extended s u values := by
  obtain ⟨image, hu, hs, hread⟩ := Segment.toSealed_ok hf hok
  obtain ⟨hv, -, hvc, hle⟩ := hf.vector
  have hdata : u.data = .sealed image (v.resize t.count) := by rw [hu]
  have hunder : ∀ source i, i < t.count → u.under source i = t.under source i := by
    intro source i hi
    obtain ⟨x, hx, -⟩ := ValueVector.get?_of_lt hv (i := i) (by omega)
    rw [Segment.under_buffer hf.data_eq source i hx,
      Segment.under_sealed hdata source i ((hread i hi).trans hx)]
  have hcount := h.count_eq
  refine ⟨hs, by rw [hu]; exact h.type_eq, by rw [hu]; exact h.start_eq, by rw [hu]; exact hcount,
    by rw [hu]; exact h.overlay_eq, fun source i hi => ?_, fun source k x hk => ?_⟩
  · exact (hunder source i (by omega)).trans (h.under_old source i hi)
  · have hk' := (List.getElem?_eq_some_iff.mp hk).1
    exact (hunder source _ (by omega)).trans (h.under_new source k x hk)

/-- **A column grows with its last segment.** -/
theorem grows_of_extended {c : Column} {front : List Segment} {s t : Segment} {v : ValueVector}
    (h : c.Sound) (ho : Opens c front s v) {values : List Scalar} (he : Extended s t values) :
    Grows c { c with segments := front ++ [t], rows := c.rows + values.length } values := by
  have hstop : s.start + s.count = c.rows := ho.stop_eq
  have hstop' : t.stop = c.rows + values.length := by
    rw [Segment.stop, he.start_eq, he.count_eq]
    omega
  have hfront : Contiguous 0 front t.start := he.start_eq ▸ ho.front_contiguous
  have hlast : ∀ row, s.start ≤ row → row < c.rows + values.length →
      locate { c with segments := front ++ [t], rows := c.rows + values.length } row =
        .ok (front.length, t, row - s.start) := fun row hlo hhi =>
    he.start_eq ▸ locate_last rfl hfront (he.start_eq ▸ hlo) (hstop' ▸ hhi) hhi
  -- Old rows are where they were, in front of the last segment or in it.
  have hold : ∀ row, row < c.rows →
      locate { c with segments := front ++ [t], rows := c.rows + values.length } row =
          c.locate row ∨
        c.locate row = .ok (front.length, s, row - s.start) ∧ s.start ≤ row := by
    intro row hrow
    rcases Nat.lt_or_ge row s.start with hlt | hge
    · obtain ⟨i, u, hu⟩ := locate_front ho.front_contiguous hlt
      refine Or.inl ?_
      rw [hu _ [t] rfl (by simp only; omega)]
      rcases ho.segments_eq with hc | ⟨hc, -⟩
      · rw [hu c [s] hc hrow]
      · rw [hu c [] (by simpa using hc) hrow]
    · rcases ho.segments_eq with hc | ⟨-, hs⟩
      · exact Or.inr ⟨locate_last hc ho.front_contiguous hge (by rw [Segment.stop]; omega) hrow,
          hge⟩
      · omega
  refine ⟨⟨h.plain, ?_, ?_⟩, rfl, rfl, rfl, fun r => ?_, fun source r hr => ?_,
    fun source k x hk => ?_⟩
  · exact contiguous_append hfront ⟨rfl, hstop'⟩
  · intro u hu
    rcases List.mem_append.mp hu with hu | hu
    · exact ho.front_sound u hu
    · obtain rfl := List.mem_singleton.mp hu
      exact ⟨he.sound, he.type_eq.trans ho.type_eq⟩
  · rcases Nat.lt_or_ge r c.rows with hr | hr
    · unfold chain
      rcases hold r hr with heq | ⟨heq, hge⟩
      · rw [heq]
      · rw [heq, hlast r hge (by omega)]
        simp only [he.overlay_eq]
    · rw [chain_of_le hr]
      rcases Nat.lt_or_ge r (c.rows + values.length) with hlt | hge
      · unfold chain
        rw [hlast r (by omega) hlt]
        simp only [he.overlay_eq]
        exact ho.fills.sound.chain_nil _ (by omega)
      · exact chain_of_le hge
  · unfold under
    rcases hold r hr with heq | ⟨heq, hge⟩
    · rw [heq]
    · rw [heq, hlast r hge (by omega)]
      exact he.under_old source _ (by omega)
  · have hk' : k < values.length := (List.getElem?_eq_some_iff.mp hk).1
    unfold under
    rw [hlast _ (by omega) (by omega)]
    have := he.under_new source k x hk
    rwa [show s.count + k = c.rows + k - s.start by omega] at this

/-- A column of which the last segment was filled, and sealed if it was full then. -/
structure Filled (c c' : Column) (source : ValueVector) (rows : Selection) (taken : Nat)
    (front : List Segment) (s t u : Segment) : Prop where
  opens : ∃ v, Opens c front s v
  opened : c.openSegment = .ok (front, s)
  appended : s.append source rows = (.ok taken, t)
  fills : ∃ v, t.Fills v
  last : u = t ∨ t.toSealed c.policy.compression = .ok u
  eq : c' = { c with segments := front ++ [u], rows := c.rows + taken }

/-- **The segment that was filled** extends what it was. -/
theorem Filled.extended {c c' : Column} {source : ValueVector} {rows : Selection} {taken : Nat}
    {front : List Segment} {s t u : Segment} (h : Filled c c' source rows taken front s t u)
    {v : ValueVector} (ho : Opens c front s v) {values : List Scalar}
    (hl : ValueVector.Lists source rows values) :
    taken = min (s.capacity - s.count) values.length ∧ Extended s u (values.take taken) := by
  obtain ⟨hn, ⟨v', hfills⟩, hext⟩ := extended_of_append ho.fills hl h.appended
  rcases h.last with rfl | hsealed
  · exact ⟨hn, hext⟩
  · exact ⟨hn, hext.toSealed hfills hsealed⟩

/-- **A column grows when its last segment is filled.** -/
theorem Filled.grows {c c' : Column} {source : ValueVector} {rows : Selection} {taken : Nat}
    {front : List Segment} {s t u : Segment} (hf : Filled c c' source rows taken front s t u)
    (h : c.Sound) {values : List Scalar} (hl : ValueVector.Lists source rows values) :
    taken ≤ values.length ∧ Grows c c' (values.take taken) := by
  obtain ⟨v, hopens⟩ := hf.opens
  obtain ⟨hn, hext⟩ := hf.extended hopens hl
  have hgrows := grows_of_extended h hopens hext
  rw [List.length_take, show min taken values.length = taken by omega, ← hf.eq] at hgrows
  exact ⟨by omega, hgrows⟩

/-- **The last segment is filled,** or a new one behind it. -/
theorem fillSegment_cases {c c' : Column} (h : c.Sound) {source : ValueVector} {rows : Selection}
    {values : List Scalar} (hl : ValueVector.Lists source rows values) {taken : Nat}
    (hok : c.fillSegment source rows = (.ok taken, c')) :
    ∃ front s t u, Filled c c' source rows taken front s t u := by
  unfold fillSegment at hok
  cases ho : c.openSegment with
  | error e => rw [ho] at hok; cases hok
  | ok found =>
    obtain ⟨front, s⟩ := found
    rw [ho] at hok
    obtain ⟨v, hopens⟩ := openSegment_ok h ho
    dsimp only at hok
    rcases ha : s.append source rows with ⟨e | n, t⟩ <;> rw [ha] at hok
    · cases hok
    obtain ⟨-, hfills, -⟩ := extended_of_append hopens.fills hl ha
    dsimp only at hok
    cases hu : (if t.isFull then t.toSealed c.policy.compression else .ok t) with
    | error e => rw [hu] at hok; cases hok
    | ok u =>
      rw [hu] at hok
      obtain ⟨rfl, rfl⟩ : n = taken ∧ _ = c' := by simpa using hok
      refine ⟨front, s, t, u, ⟨v, hopens⟩, ho, ha, hfills, ?_, rfl⟩
      split at hu
      · exact Or.inr hu
      · exact Or.inl (Except.ok.inj hu).symm

/-- As long as there are values, one is added. -/
theorem Filled.pos {c c' : Column} {source : ValueVector} {rows : Selection} {taken : Nat}
    {front : List Segment} {s t u : Segment} (hf : Filled c c' source rows taken front s t u)
    {values : List Scalar} (hl : ValueVector.Lists source rows values) (hp : 0 < c.policy.capacity)
    (hne : values ≠ []) : 0 < taken := by
  obtain ⟨v, hopens⟩ := hf.opens
  obtain ⟨hn, -⟩ := hf.extended hopens hl
  have := List.length_pos_iff.mpr hne
  have := hopens.room hp
  omega

/-- **Values are added pass by pass.**  What is true of a column without any of them, and stays true of
those so far whenever the last segment is filled, is true of all of them in the end. -/
theorem append_induction {source : ValueVector} {P : Column → List Scalar → Prop}
    (hP : ∀ (d d' : Column) (front : List Segment) (s t u : Segment) (rows : Selection) (taken : Nat)
      (before values : List Scalar), source.Lists rows values → d.Sound →
        Filled d d' source rows taken front s t u → P d before →
          P d' (before ++ values.take taken))
    {c c' : Column} (h : c.Sound) (hp : 0 < c.policy.capacity) {rows : Selection}
    {values : List Scalar} (hl : ValueVector.Lists source rows values)
    (hok : c.append source rows = (.ok (), c')) (hc : P c []) : P c' values := by
  unfold append at hok
  split at hok
  · cases hok
  rename_i htype
  clear htype
  suffices hall : ∀ before, P c before → P c' (before ++ values) from hall [] hc
  clear hc
  induction hn : values.length using Nat.strongRecOn generalizing c rows values with
  | ind n ih =>
    intro before hc
    have hlen : rows.length = values.length := by simpa using congrArg List.length hl
    by_cases hnil : values = []
    · subst hnil
      obtain rfl : rows = [] := List.length_eq_zero_iff.mp hlen
      rw [appendRows] at hok
      obtain rfl : c = c' := by simpa using hok
      rwa [List.append_nil]
    have hpos := List.length_pos_iff.mpr hnil
    rw [appendRows_eq c source (List.length_pos_iff.mp (by omega))] at hok
    rcases hf : c.fillSegment source rows with ⟨e | taken, d⟩ <;> rw [hf] at hok
    · cases hok
    obtain ⟨front, s, t, u, hfilled⟩ := fillSegment_cases h hl hf
    obtain ⟨hle, hgrows⟩ := hfilled.grows h hl
    have htaken := hfilled.pos hl hp hnil
    dsimp only at hok
    rw [if_neg (by omega)] at hok
    have hrest : source.Lists (rows.drop taken) (values.drop taken) := by
      simp only [ValueVector.Lists, List.map_drop]
      rw [hl]
    have hlater := ih (values.drop taken).length (by rw [List.length_drop]; omega) hgrows.sound
      (hgrows.policy_eq ▸ hp) hrest hok rfl _
      (hP c d front s t u rows taken before values hl h hfilled hc)
    rwa [List.append_assoc, List.take_append_drop] at hlater

/-- **Values are added behind the old rows,** which stay as they are. -/
theorem append_ok {c c' : Column} (h : c.Sound) (hp : 0 < c.policy.capacity)
    {source : ValueVector} {rows : Selection} {values : List Scalar}
    (hl : ValueVector.Lists source rows values)
    (hok : c.append source rows = (.ok (), c')) : Grows c c' values := by
  refine append_induction (P := Grows c) ?_ h hp hl hok (.refl h)
  intro d d' front s t u rows taken before values hl hd hf hgrows
  exact hgrows.trans (hf.grows hd hl).2

/-- **What is kept whenever the last segment is filled** is kept when values are added. -/
theorem append_keeps {source : ValueVector} {P : Column → Prop}
    (hP : ∀ (c c' : Column) (front : List Segment) (s t u : Segment) (rows : Selection) (taken : Nat)
      (values : List Scalar), source.Lists rows values →
        Filled c c' source rows taken front s t u → P c → P c')
    {c c' : Column} (h : c.Sound) (hp : 0 < c.policy.capacity) {rows : Selection}
    {values : List Scalar} (hl : ValueVector.Lists source rows values)
    (hok : c.append source rows = (.ok (), c')) (hc : P c) : P c' := by
  refine append_induction (P := fun d _ => P d) ?_ h hp hl hok hc
  intro d d' front s t u rows taken before values hl hd hf hc
  exact hP d d' front s t u rows taken values hl hf hc

end Column

/-! ## Segments in block files -/

namespace Segment

variable {preferred : Scheme}

/-- A segment whose bytes are those of a vector with its values. -/
def Imaged (preferred : Scheme) (s : Segment) : Prop :=
  ∃ v : ValueVector, v.Sound ∧ v.type = s.type ∧ s.count ≤ v.capacity ∧
    (∀ i < s.count, ∀ source x, v.get? i = some x → s.under source i = .ok x) ∧
    ∀ source image, s.encoded source preferred = .ok image →
      SegmentImage.encode v s.count preferred = .ok image

theorem Fills.imaged {s : Segment} {v : ValueVector} (h : s.Fills v) : s.Imaged preferred := by
  obtain ⟨hv, ht, hc, hle⟩ := h.vector
  refine ⟨v, hv, ht, hc ▸ hle, fun i _ source x hx => under_buffer h.data_eq source i hx,
    fun source image himage => ?_⟩
  rwa [encoded, h.data_eq] at himage

/-- **A segment that is sealed** has the bytes of the vector that it was filled in. -/
theorem imaged_toSealed {s t : Segment} {v : ValueVector} (h : s.Fills v)
    (hok : s.toSealed preferred = .ok t) : t.Imaged preferred := by
  obtain ⟨hv, ht, hc, hle⟩ := h.vector
  obtain ⟨image, rfl, -, hread⟩ := toSealed_ok h hok
  have himage : SegmentImage.encode v s.count preferred = .ok image := by
    rw [toSealed, h.data_eq] at hok
    obtain ⟨image', himage, heq⟩ := bind_eq_ok.mp hok
    have hdata := congrArg Segment.data (Except.ok.inj heq)
    simp only [SegmentData.sealed.injEq] at hdata
    exact hdata.1 ▸ himage
  refine ⟨v, hv, ht, hc ▸ hle, fun i hi source x hx => under_sealed rfl source i ((hread i hi).trans hx),
    fun source image' hok => ?_⟩
  obtain rfl := Except.ok.inj hok
  exact himage

/-- **A segment is read back** from blocks that hold its bytes. -/
theorem Imaged.load {s : Segment} (h : s.Imaged preferred) (hf : preferred.Faithful)
    {source : Source} {image : Bytes} (himage : s.encoded source preferred = .ok image)
    {stored : StoredValues} (ht : stored.type = s.type) (hrows : stored.rows = s.count) {d : Disk}
    (hread : stored.blocks.read d stored.pointer = .ok image) :
    ∃ w, d.source.load stored = .ok w ∧ ∀ i < s.count, ∃ x y,
      (∀ source', s.under source' i = .ok x) ∧ w.get? i = some y ∧ y.same x = true := by
  obtain ⟨v, hv, hvt, hc, hunder, hencode⟩ := h
  obtain ⟨w, hdecode, hcapacity, hget⟩ := SegmentImage.decode_encode hv hc hf (hencode _ _ himage)
  refine ⟨w, ?_, fun i hi => ?_⟩
  · have hbytes : d.source.bytes stored = .ok image := hread
    have hnone : d.source.known stored = none := rfl
    rw [Source.load, hnone]
    simp only [hbytes, ok_bind, ht, ← hvt, hdecode, hcapacity, hrows, ne_eq, not_true_eq_false,
      if_false]
    rfl
  · obtain ⟨x, y, hx, hy, hsame⟩ := hget i hi
    exact ⟨x, y, fun source' => hunder i hi source' x hx, hy, hsame⟩

end Segment

namespace Column

/-- A column whose segments have the bytes of vectors with their values. -/
def Imaged (c : Column) : Prop := ∀ s ∈ c.segments, s.Imaged c.policy.compression

/-- **Values that are added to a column** can be read back as those before. -/
theorem Imaged.append {c c' : Column} (hi : c.Imaged) (h : c.Sound) (hp : 0 < c.policy.capacity)
    {source : ValueVector} {rows : Selection} {values : List Scalar}
    (hl : ValueVector.Lists source rows values) (hok : c.append source rows = (.ok (), c')) :
    c'.Imaged := by
  refine append_keeps ?_ h hp hl hok hi
  rintro c c' front s t u rows taken values hl ⟨-, hopen, -, ⟨v', hfills⟩, hlast, rfl⟩ hc r hr
  rcases List.mem_append.mp hr with hr | hr
  · exact hc r ((mem_of_openSegment hopen).1 r hr)
  · obtain rfl := List.mem_singleton.mp hr
    rcases hlast with rfl | hsealed
    · exact hfills.imaged
    · exact Segment.imaged_toSealed hfills hsealed

end Column
end ColumnStore
