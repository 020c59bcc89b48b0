/-
# The segments of a column

The segments of a column follow each other without gaps, so each row is in exactly one of them
(`locate_of_lt`).  A change of the updates of one segment moves no row (`locate_set`).  What such a
change does to the column is told by the chains of its rows: the lemmas at the end say so for a
write, for its commit and for taking it back.
-/

import ColumnStore.Proofs.Overlay.Chains
import ColumnStore.Proofs.Vector.Slots
import ColumnStore.Segment.Column
import Mathlib.Data.List.Forall2

namespace ColumnStore

/-! ## Sound segments -/

namespace Segment

/-- The values of a segment are of its type, and there are as many as it has rows. -/
def SoundData (s : Segment) : Prop :=
  match s.data with
  | .buffer v => v.Sound ∧ v.type = s.type ∧ v.capacity = s.capacity ∧ s.count ≤ s.capacity
  | .sealed _ v => v.Sound ∧ v.type = s.type ∧ v.capacity = s.count
  | .stored v => v.type = s.type ∧ v.rows = s.count

/-- A segment whose updates are in order and of rows that it has. -/
structure Sound (s : Segment) : Prop where
  ascending : Overlay.Ascending s.overlay.chains
  chain_nil : ∀ r, s.count ≤ r → s.overlay.chain r = []
  data : s.SoundData

end Segment

namespace Column

/-- Segments follow each other without gaps. -/
def Contiguous (start : Nat) : List Segment → (stop : Nat) → Prop
  | [], stop => start = stop
  | s :: rest, stop => s.start = start ∧ Contiguous s.stop rest stop

theorem Contiguous.le {start stop : Nat} {segments : List Segment}
    (h : Contiguous start segments stop) : start ≤ stop := by
  induction segments generalizing start with
  | nil => exact Nat.le_of_eq h
  | cons s rest ih =>
    have := ih h.2
    have := h.1
    unfold Segment.stop at *
    omega

theorem contiguous_append {start middle stop : Nat} {front back : List Segment}
    (hf : Contiguous start front middle) (hb : Contiguous middle back stop) :
    Contiguous start (front ++ back) stop := by
  induction front generalizing start with
  | nil => exact (show start = middle from hf) ▸ hb
  | cons s rest ih => exact ⟨hf.1, ih hf.2⟩

theorem exists_of_contiguous_append {start stop : Nat} {front back : List Segment}
    (h : Contiguous start (front ++ back) stop) :
    ∃ middle, Contiguous start front middle ∧ Contiguous middle back stop := by
  induction front generalizing start with
  | nil => exact ⟨start, rfl, h⟩
  | cons s rest ih =>
    obtain ⟨middle, hf, hb⟩ := ih h.2
    exact ⟨middle, ⟨h.1, hf⟩, hb⟩

/-- **Segments that make a column** follow each other without gaps. -/
theorem contiguous_of_rowsFrom {start stop : Nat} {segments : List Segment}
    (h : rowsFrom start segments = .ok stop) : Contiguous start segments stop := by
  induction segments generalizing start with
  | nil => exact Except.ok.inj h
  | cons s rest ih =>
    rw [rowsFrom] at h
    split at h
    · cases h
    rename_i hstart
    rw [not_not] at hstart
    unfold Segment.stop? at h
    split at h
    · rename_i stop' hstop
      split at hstop
      · obtain rfl := Option.some.inj hstop
        exact ⟨hstart, ih h⟩
      · cases hstop
    · cases h

/-- **Every row is in one segment,** the first one that ends behind it. -/
theorem findIdx?_of_contiguous {start stop row : Nat} {segments : List Segment}
    (h : Contiguous start segments stop) (hlo : start ≤ row) (hhi : row < stop) :
    ∃ i s, segments.findIdx? (row < ·.stop) = some i ∧ segments[i]? = some s ∧ s.start ≤ row ∧
      row < s.stop := by
  induction segments generalizing start with
  | nil =>
    have : start = stop := h
    omega
  | cons s rest ih =>
    by_cases hs : row < s.stop
    · exact ⟨0, s, by simp [List.findIdx?_cons, hs], rfl, h.1 ▸ hlo, hs⟩
    · obtain ⟨i, t, hi, ht, hle, hlt⟩ := ih h.2 (by omega)
      exact ⟨i + 1, t, by simp [List.findIdx?_cons, hs, hi], by simpa using ht, hle, hlt⟩

/-- A column whose segments are sound, of its type, and follow each other without gaps. -/
structure Sound (c : Column) : Prop where
  plain : c.type.isNested = false
  contiguous : Contiguous 0 c.segments c.rows
  segment : ∀ s ∈ c.segments, s.Sound ∧ s.type = c.type

theorem locate_of_lt {c : Column} (h : c.Sound) {row : Nat} (hrow : row < c.rows) :
    ∃ i s, c.locate row = .ok (i, s, row - s.start) ∧ c.segments[i]? = some s ∧ s.start ≤ row ∧
      row < s.stop := by
  obtain ⟨i, s, hi, hs, hle, hlt⟩ := findIdx?_of_contiguous h.contiguous (Nat.zero_le row) hrow
  refine ⟨i, s, ?_, hs, hle, hlt⟩
  simp only [locate, segmentIndex?, if_neg (show ¬c.rows ≤ row by omega), hi, hs]

theorem locate_of_le {c : Column} {row : Nat} (hrow : c.rows ≤ row) :
    c.locate row = .error (.rowOutOfRange "" row) := by
  simp [locate, segmentIndex?, hrow]

/-- **The rows of a segment are found there.** -/
theorem locate_of_mem {c : Column} (h : c.Sound) {j : Nat} {s : Segment}
    (hs : c.segments[j]? = some s) {i : Nat} (hi : i < s.count) :
    s.start + i < c.rows ∧ c.locate (s.start + i) = .ok (j, s, i) := by
  have hfind : ∀ {start stop : Nat} {segments : List Segment} {j : Nat},
      Contiguous start segments stop → segments[j]? = some s → s.start + i < stop ∧ start ≤ s.start ∧
        segments.findIdx? (s.start + i < ·.stop) = some j := by
    intro start stop segments j hc hj
    induction segments generalizing start j with
    | nil => cases hj
    | cons t rest ih =>
      cases j with
      | zero =>
        obtain rfl : t = s := Option.some.inj hj
        have hlt : t.start + i < t.stop := Nat.add_lt_add_left hi _
        exact ⟨Nat.lt_of_lt_of_le hlt hc.2.le, Nat.le_of_eq hc.1.symm, by simp [List.findIdx?_cons, hlt]⟩
      | succ j =>
        obtain ⟨hstop, hle, hfound⟩ := ih hc.2 hj
        have hskip : ¬s.start + i < t.stop := by omega
        refine ⟨hstop, ?_, by simp [List.findIdx?_cons, hskip, hfound]⟩
        have := hc.1
        unfold Segment.stop at hle
        omega
  obtain ⟨hlt, -, hfound⟩ := hfind h.contiguous hs
  refine ⟨hlt, ?_⟩
  rw [locate, segmentIndex?, if_neg (Nat.not_le_of_lt hlt), hfound]
  simp only [hs, Nat.add_sub_cancel_left]

/-- Rows that are found lie in the segment that is given for them. -/
theorem of_locate {c : Column} (h : c.Sound) {row i p : Nat} {s : Segment}
    (hl : c.locate row = .ok (i, s, p)) :
    row < c.rows ∧ c.segments[i]? = some s ∧ s ∈ c.segments ∧ s.start ≤ row ∧ row < s.stop ∧
      p = row - s.start := by
  have hrow : row < c.rows := by
    by_contra hge
    rw [locate_of_le (by omega)] at hl
    cases hl
  obtain ⟨i', s', he, hs, hle, hlt⟩ := locate_of_lt h hrow
  rw [he] at hl
  cases hl
  exact ⟨hrow, hs, List.mem_of_getElem? hs, hle, hlt, rfl⟩

/-! ## Changing one segment -/

/-- Another segment in place of one. -/
def withSegment (c : Column) (i : Nat) (s : Segment) : Column :=
  { c with segments := c.segments.set i s }

/-- A segment with other updates and statistics, and the same values. -/
structure Revises (s s' : Segment) : Prop where
  type_eq : s'.type = s.type
  start_eq : s'.start = s.start
  count_eq : s'.count = s.count
  capacity_eq : s'.capacity = s.capacity
  data_eq : s'.data = s.data

theorem Revises.stop_eq {s s' : Segment} (h : Revises s s') : s'.stop = s.stop := by
  simp only [Segment.stop, h.start_eq, h.count_eq]

theorem Revises.soundData {s s' : Segment} (h : Revises s s') (hs : s.SoundData) :
    s'.SoundData := by
  unfold Segment.SoundData at hs ⊢
  simpa only [h.data_eq, h.type_eq, h.capacity_eq, h.count_eq] using hs

theorem contiguous_set {start stop i : Nat} {segments : List Segment} {s s' : Segment}
    (h : Contiguous start segments stop) (hi : segments[i]? = some s) (hr : Revises s s') :
    Contiguous start (segments.set i s') stop := by
  induction segments generalizing start i with
  | nil => simp at hi
  | cons t rest ih =>
    cases i with
    | zero =>
      obtain rfl : t = s := by simpa using hi
      exact ⟨hr.start_eq.trans h.1, hr.stop_eq ▸ h.2⟩
    | succ i => exact ⟨h.1, ih h.2 (by simpa using hi)⟩

theorem findIdx?_set {row i : Nat} {segments : List Segment} {s s' : Segment}
    (hi : segments[i]? = some s) (hr : Revises s s') :
    (segments.set i s').findIdx? (row < ·.stop) = segments.findIdx? (row < ·.stop) := by
  induction segments generalizing i with
  | nil => rfl
  | cons t rest ih =>
    cases i with
    | zero =>
      obtain rfl : t = s := by simpa using hi
      simp [List.findIdx?_cons, hr.stop_eq]
    | succ i => simp [List.findIdx?_cons, ih (show rest[i]? = some s by simpa using hi)]

/-- **Other updates of a segment move no row.** -/
theorem locate_set {c : Column} (h : c.Sound) {i : Nat} {s s' : Segment}
    (hi : c.segments[i]? = some s) (hr : Revises s s') (row : Nat) :
    (c.withSegment i s').locate row =
      (c.locate row).map fun (j, t, p) => (j, if j = i then s' else t, p) := by
  rcases Nat.lt_or_ge row c.rows with hrow | hrow
  · obtain ⟨j, t, hl, ht, -, -⟩ := locate_of_lt h hrow
    have hj := (findIdx?_of_contiguous h.contiguous (Nat.zero_le row) hrow)
    obtain ⟨j', t', hj', ht', -, -⟩ := hj
    have hjj : j' = j := by
      simp only [locate, segmentIndex?, if_neg (show ¬c.rows ≤ row by omega), hj', ht'] at hl
      cases hl
      rfl
    subst hjj
    rw [hl]
    simp only [locate, segmentIndex?, withSegment, if_neg (show ¬c.rows ≤ row by omega),
      findIdx?_set hi hr, hj', Except.map]
    by_cases he : j' = i
    · subst he
      rw [hi] at ht
      cases ht
      simp [List.getElem?_set_self (List.getElem?_eq_some_iff.mp hi).1, hr.start_eq]
    · simp [List.getElem?_set_ne (Ne.symm he), ht, he]
  · rw [locate_of_le hrow]
    exact locate_of_le hrow

theorem sound_withSegment {c : Column} (h : c.Sound) {i : Nat} {s s' : Segment}
    (hi : c.segments[i]? = some s) (hr : Revises s s') (hs : s'.Sound) :
    (c.withSegment i s').Sound where
  plain := h.plain
  contiguous := contiguous_set h.contiguous hi hr
  segment t ht := by
    rcases List.mem_or_eq_of_mem_set ht with ht | rfl
    · exact h.segment t ht
    · exact ⟨hs, hr.type_eq.trans (h.segment s (List.mem_of_getElem? hi)).2⟩

/-! ## Chains of rows -/

/-- The versions of a row, the oldest first. -/
def chain (c : Column) (row : Nat) : List Version :=
  match c.locate row with
  | .ok (_, s, i) => s.overlay.chain i
  | .error _ => []

theorem chain_of_le {c : Column} {row : Nat} (hrow : c.rows ≤ row) : c.chain row = [] := by
  rw [chain, locate_of_le hrow]

/-- The chains after a change of one chain in one segment. -/
theorem chain_withSegment {c : Column} (h : c.Sound) {row i p : Nat} {s s' : Segment}
    (hl : c.locate row = .ok (i, s, p)) (hr : Revises s s') {f : List Version → List Version}
    (hf : ∀ q, s'.overlay.chain q =
      if q = p then f (s.overlay.chain p) else s.overlay.chain q) (r : Nat) :
    (c.withSegment i s').chain r = if r = row then f (c.chain row) else c.chain r := by
  obtain ⟨hrow, hi, -, hle, hlt, hp⟩ := of_locate h hl
  rw [chain, locate_set h hi hr r]
  rcases Nat.lt_or_ge r c.rows with hrr | hrr
  · obtain ⟨j, t, hlr, hj, hle', hlt'⟩ := locate_of_lt h hrr
    simp only [chain, hlr, hl, Except.map]
    by_cases he : j = i
    · subst he
      obtain rfl : t = s := by rw [hi] at hj; exact (Option.some.inj hj).symm
      rw [if_pos rfl, hf]
      by_cases hrow' : r = row
      · rw [if_pos (by omega), if_pos hrow']
      · rw [if_neg (by omega), if_neg hrow']
    · rw [if_neg he, if_neg]
      rintro rfl
      rw [hl] at hlr
      exact he (by cases hlr; rfl)
  · rw [if_neg (by omega), chain_of_le hrr, locate_of_le hrr]
    rfl

/-- What a change of one row of a column leaves as it is. -/
structure Keeps (c c' : Column) : Prop where
  sound : c'.Sound
  type_eq : c'.type = c.type
  policy_eq : c'.policy = c.policy
  rows_eq : c'.rows = c.rows
  segments : List.Forall₂ Revises c.segments c'.segments

theorem Revises.refl (s : Segment) : Revises s s := ⟨rfl, rfl, rfl, rfl, rfl⟩

theorem Revises.trans {s t u : Segment} (h : Revises s t) (h' : Revises t u) : Revises s u :=
  ⟨h'.type_eq.trans h.type_eq, h'.start_eq.trans h.start_eq, h'.count_eq.trans h.count_eq,
    h'.capacity_eq.trans h.capacity_eq, h'.data_eq.trans h.data_eq⟩

theorem Keeps.refl {c : Column} (h : c.Sound) : Keeps c c :=
  ⟨h, rfl, rfl, rfl, List.forall₂_same.mpr fun s _ => Revises.refl s⟩

theorem forall₂_revises_trans {a b c : List Segment} (h : List.Forall₂ Revises a b)
    (h' : List.Forall₂ Revises b c) : List.Forall₂ Revises a c := by
  induction h generalizing c with
  | nil => exact h'
  | cons hs _ ih =>
    cases h' with
    | cons ht hrest => exact .cons (hs.trans ht) (ih hrest)

theorem Keeps.trans {a b c : Column} (h : Keeps a b) (h' : Keeps b c) : Keeps a c :=
  ⟨h'.sound, h'.type_eq.trans h.type_eq, h'.policy_eq.trans h.policy_eq,
    h'.rows_eq.trans h.rows_eq, forall₂_revises_trans h.segments h'.segments⟩

theorem forall₂_revises_set {segments : List Segment} {i : Nat} {s s' : Segment}
    (hi : segments[i]? = some s) (hr : Revises s s') :
    List.Forall₂ Revises segments (segments.set i s') := by
  induction segments generalizing i with
  | nil => simp at hi
  | cons t rest ih =>
    cases i with
    | zero =>
      obtain rfl : t = s := by simpa using hi
      exact .cons hr (List.forall₂_same.mpr fun s _ => Revises.refl s)
    | succ i => exact .cons (Revises.refl t) (ih (by simpa using hi))

theorem keeps_withSegment {c : Column} (h : c.Sound) {i : Nat} {s s' : Segment}
    (hi : c.segments[i]? = some s) (hr : Revises s s') (hs : s'.Sound) :
    Keeps c (c.withSegment i s') :=
  ⟨sound_withSegment h hi hr hs, rfl, rfl, rfl, forall₂_revises_set hi hr⟩

/-! ## Writes -/

theorem soundOverlay {s : Segment} (h : s.Sound) {p : Nat} (hp : p < s.count)
    {o : Overlay} {f : List Version → List Version} (ha : Overlay.Ascending o.chains)
    (hf : ∀ q, o.chain q = if q = p then f (s.overlay.chain p) else s.overlay.chain q) :
    Overlay.Ascending o.chains ∧ ∀ r, s.count ≤ r → o.chain r = [] :=
  ⟨ha, fun r hr => by rw [hf r, if_neg (by omega), h.chain_nil r hr]⟩

/-- **A write adds one version to one row.** -/
theorem update_ok {c : Column} (h : c.Sound) {row : Nat} (hrow : row < c.rows) {v : Version}
    (hv : v.value.fits c.type = true) :
    ∃ c', c.update row v = .ok c' ∧ Keeps c c' ∧
      ∀ r, c'.chain r = if r = row then c.chain row ++ [v] else c.chain r := by
  obtain ⟨i, s, hl, hi, hle, hlt⟩ := locate_of_lt h hrow
  obtain ⟨hs, -⟩ := h.segment s (List.mem_of_getElem? hi)
  have hp : row - s.start < s.count := by unfold Segment.stop at hlt; omega
  have hr : Revises s (s.update (row - s.start) v) := ⟨rfl, rfl, rfl, rfl, rfl⟩
  have hf := Overlay.chain_push hs.ascending (row - s.start) v
  obtain ⟨ha, hn⟩ := soundOverlay hs hp (Overlay.ascending_push hs.ascending _ v)
    (f := (· ++ [v])) hf
  refine ⟨c.withSegment i (s.update (row - s.start) v), ?_,
    keeps_withSegment h hi hr ⟨ha, hn, hr.soundData hs.data⟩,
    chain_withSegment h hl hr (f := (· ++ [v])) hf⟩
  unfold update
  rw [hv, hl]
  rfl

/-- **A commit of a write changes stamps of one row.** -/
theorem commitUpdate_ok {c : Column} (h : c.Sound) {row : Nat} (hrow : row < c.rows)
    (transaction time : Stamp) :
    ∃ c', c.commitUpdate row transaction time = .ok c' ∧ Keeps c c' ∧
      ∀ r, c'.chain r =
        if r = row then (c.chain row).map (Overlay.restamp transaction time) else c.chain r := by
  obtain ⟨i, s, hl, hi, hle, hlt⟩ := locate_of_lt h hrow
  obtain ⟨hs, -⟩ := h.segment s (List.mem_of_getElem? hi)
  have hp : row - s.start < s.count := by unfold Segment.stop at hlt; omega
  have hr : Revises s (s.commitUpdate (row - s.start) transaction time) :=
    ⟨rfl, rfl, rfl, rfl, rfl⟩
  have hf := Overlay.chain_commit hs.ascending (row - s.start) transaction time
  obtain ⟨ha, hn⟩ := soundOverlay hs hp
    (Overlay.ascending_commit hs.ascending _ transaction time)
    (f := (·.map (Overlay.restamp transaction time))) hf
  refine ⟨c.withSegment i (s.commitUpdate (row - s.start) transaction time), ?_,
    keeps_withSegment h hi hr ⟨ha, hn, hr.soundData hs.data⟩,
    chain_withSegment h hl hr (f := (·.map (Overlay.restamp transaction time))) hf⟩
  unfold commitUpdate
  rw [hl]
  rfl

/-- **Taking a write back takes the last version of its transaction out of one row.** -/
theorem revertUpdate_ok {c : Column} (h : c.Sound) {row : Nat} (hrow : row < c.rows)
    (transaction : Stamp) :
    ∃ c', c.revertUpdate row transaction =
        .ok ((Overlay.removeLast? transaction (c.chain row)).map (·.1), c') ∧ Keeps c c' ∧
      ∀ r, c'.chain r =
        if r = row then Overlay.dropLastOf transaction (c.chain row) else c.chain r := by
  obtain ⟨i, s, hl, hi, hle, hlt⟩ := locate_of_lt h hrow
  obtain ⟨hs, -⟩ := h.segment s (List.mem_of_getElem? hi)
  have hp : row - s.start < s.count := by unfold Segment.stop at hlt; omega
  have hr : Revises s (s.revertUpdate (row - s.start) transaction).2 := ⟨rfl, rfl, rfl, rfl, rfl⟩
  have hf := Overlay.chain_remove hs.ascending (row - s.start) transaction
  obtain ⟨ha, hn⟩ := soundOverlay hs hp (Overlay.ascending_remove hs.ascending _ transaction)
    (f := Overlay.dropLastOf transaction) hf
  refine ⟨c.withSegment i (s.revertUpdate (row - s.start) transaction).2, ?_,
    keeps_withSegment h hi hr ⟨ha, hn, hr.soundData hs.data⟩,
    chain_withSegment h hl hr (f := Overlay.dropLastOf transaction) hf⟩
  have hvalue : (s.revertUpdate (row - s.start) transaction).1 =
      (Overlay.removeLast? transaction (c.chain row)).map (·.1) := by
    simp only [chain, hl, Segment.revertUpdate, Overlay.remove]
    split <;> simp_all
  unfold revertUpdate
  rw [hl, ← hvalue]
  rfl

/-- **A write that is accepted** changes nothing but the updates, nor do its commit and its end. -/
theorem keeps_of_update {c c' : Column} (h : c.Sound) {row : Nat} {v : Version}
    (hok : c.update row v = .ok c') : Keeps c c' := by
  have hfits : v.value.fits c.type = true := by
    by_contra hn
    rw [Column.update, if_pos (by simpa using hn)] at hok
    cases hok
  have hrow : row < c.rows := by
    by_contra hge
    rw [Column.update, if_neg (by simpa using hfits), locate_of_le (Nat.le_of_not_lt hge)] at hok
    cases hok
  obtain ⟨c₁, hc₁, hk, -⟩ := update_ok h hrow hfits
  exact Except.ok.inj (hc₁.symm.trans hok) ▸ hk

theorem keeps_of_commitUpdate {c c' : Column} (h : c.Sound) {row : Nat} {transaction time : Stamp}
    (hok : c.commitUpdate row transaction time = .ok c') : Keeps c c' := by
  have hrow : row < c.rows := by
    by_contra hge
    rw [Column.commitUpdate, locate_of_le (Nat.le_of_not_lt hge)] at hok
    cases hok
  obtain ⟨c₁, hc₁, hk, -⟩ := commitUpdate_ok h hrow transaction time
  exact Except.ok.inj (hc₁.symm.trans hok) ▸ hk

theorem keeps_of_revertUpdate {c c' : Column} (h : c.Sound) {row : Nat} {transaction : Stamp}
    {before : Option Scalar} (hok : c.revertUpdate row transaction = .ok (before, c')) :
    Keeps c c' := by
  have hrow : row < c.rows := by
    by_contra hge
    rw [Column.revertUpdate, locate_of_le (Nat.le_of_not_lt hge)] at hok
    cases hok
  obtain ⟨c₁, hc₁, hk, -⟩ := revertUpdate_ok h hrow transaction
  exact (Prod.mk.inj (Except.ok.inj (hc₁.symm.trans hok))).2 ▸ hk

theorem latestUpdate?_eq (c : Column) (row : Nat) :
    c.latestUpdate? row = (c.chain row).getLast?.map (·.stamp) := by
  unfold latestUpdate? chain
  cases c.locate row with
  | error e => rfl
  | ok found => rfl

end Column
end ColumnStore
