/-
# What a row of a column holds

A reader of a row gets the newest version that it sees, and else the value that the row was filled
with (`fetch_result`).  Updates do not change what is under them (`Keeps.under_eq`).
-/

import ColumnStore.Proofs.Attempts
import ColumnStore.Proofs.Column.Growth
import ColumnStore.Proofs.Column.Segments

namespace ColumnStore

theorem sees_iff {s : Snapshot} {stamp : Stamp} :
    s.sees stamp = true ↔ stamp ≤ s.time ∨ stamp = s.transaction := by
  rw [Snapshot.sees, Bool.or_eq_true, decide_eq_true_iff, beq_iff_eq]

theorem sees_own (s : Snapshot) : s.sees s.transaction = true := sees_iff.mpr (Or.inr rfl)

/-- The value of the newest version that a snapshot sees. -/
def seen? (chain : List Version) (s : Snapshot) : Option Scalar :=
  (chain.reverse.find? fun v => s.sees v.stamp).map (·.value)

@[simp] theorem seen?_nil (s : Snapshot) : seen? [] s = none := rfl

theorem seen?_snoc (chain : List Version) (v : Version) (s : Snapshot) :
    seen? (chain ++ [v]) s = if s.sees v.stamp then some v.value else seen? chain s := by
  simp only [seen?, List.reverse_append, List.reverse_singleton, List.singleton_append,
    List.find?_cons]
  cases s.sees v.stamp <;> rfl

/-- The newest version in a chain that a reader sees, and else the value under the chain. -/
def readOver (under : Except StorageError Scalar) (chain : List Version) (s : Snapshot) :
    Except StorageError Scalar :=
  match seen? chain s with
  | some x => .ok x
  | none => under

theorem readOver_snoc (under : Except StorageError Scalar) (chain : List Version) (v : Version)
    (s : Snapshot) :
    readOver under (chain ++ [v]) s =
      if s.sees v.stamp then .ok v.value else readOver under chain s := by
  unfold readOver
  rw [seen?_snoc]
  cases s.sees v.stamp <;> rfl

namespace Segment

/-- The value that a row of a segment was filled with. -/
def under (s : Segment) (source : Source) (i : Nat) : Except StorageError Scalar := do
  let v ← (s.base source).result
  match v.get? i with
  | some x => .ok x
  | none => .error (.vector .outOfRange)

/-- A row was filled with what stands in its slot of the values under the updates. -/
theorem under_eq_ok {s : Segment} {source : Source} {i : Nat} {x : Scalar} :
    s.under source i = .ok x ↔ ∃ v, (s.base source).result = .ok v ∧ v.get? i = some x := by
  rw [under, bind_eq_ok]
  refine exists_congr fun v => and_congr_right fun _ => ?_
  cases v.get? i with
  | none => exact iff_of_false (by simp) (by simp)
  | some y => rw [Except.ok.injEq, Option.some.injEq]

theorem fetch_result (s : Segment) (source : Source) (i : Nat) (snapshot : Snapshot) :
    (s.fetch source i snapshot).result =
      readOver (s.under source i) (s.overlay.chain i) snapshot := by
  unfold fetch readOver
  change (match seen? (s.overlay.chain i) snapshot with
    | some x => pure x
    | none => _ : Reading Scalar).result = _
  cases seen? (s.overlay.chain i) snapshot with
  | some x => rfl
  | none =>
    simp only [Reading.result_bind, under]
    cases (s.base source).result with
    | error e => rfl
    | ok v =>
      simp only [bind, Except.bind]
      cases v.get? i <;> rfl

theorem under_revises {s s' : Segment} (h : Column.Revises s s') (source : Source) (i : Nat) :
    s'.under source i = s.under source i := by
  simp only [under, base, h.data_eq]

theorem under_buffer {s : Segment} {v : ValueVector} (h : s.data = .buffer v) (source : Source)
    (i : Nat) {x : Scalar} (hx : v.get? i = some x) : s.under source i = .ok x := by
  simp only [under, base, h, Reading.result_pure, bind, Except.bind, hx]

theorem under_sealed {s : Segment} {v : ValueVector} {image : Bytes} (h : s.data = .sealed image v)
    (source : Source) (i : Nat) {x : Scalar} (hx : v.get? i = some x) :
    s.under source i = .ok x := by
  simp only [under, base, h, Reading.result_pure, bind, Except.bind, hx]

theorem under_stored {s : Segment} {stored : StoredValues} (h : s.data = .stored stored)
    {source : Source} {v : ValueVector} (hload : source.load stored = .ok v) {i : Nat} {x : Scalar}
    (hx : v.get? i = some x) : s.under source i = .ok x := by
  simp only [under, base, h, Reading.result_load, hload, ok_bind, hx]

/-! ## Filling -/

theorem fill_eq {v : ValueVector} (h : v.Sound) (source : ValueVector) (i : Nat) (t : Statistics)
    (rows : Selection) :
    (fill source i v t rows).1 = (v.copyRows i source rows).1 ∧
      (fill source i v t rows).2.1 = (v.copyRows i source rows).2 := by
  induction rows generalizing v i t with
  | nil => exact ⟨rfl, rfl⟩
  | cons row rest ih =>
    unfold fill ValueVector.copyRows
    cases hg : source.get? row with
    | none =>
      obtain ⟨e, he⟩ := ValueVector.copySlot_none hg v i
      rw [he]
      exact ⟨rfl, rfl⟩
    | some x =>
      rw [ValueVector.copySlot_eq hg]
      rcases ValueVector.set_cases h i x with ⟨v', he, -, -, hext, hself, -⟩ | ⟨e, he⟩
      · rw [he]
        dsimp only
        rw [hself]
        exact ih hext.sound (i + 1) _
      · rw [he]
        exact ⟨rfl, rfl⟩

/-- A segment that can be filled, and the vector that holds its values. -/
structure Fills (s : Segment) (v : ValueVector) : Prop where
  sound : s.Sound
  data_eq : s.data = .buffer v

theorem Fills.vector {s : Segment} {v : ValueVector} (h : s.Fills v) :
    v.Sound ∧ v.type = s.type ∧ v.capacity = s.capacity ∧ s.count ≤ s.capacity := by
  have := h.sound.data
  rwa [SoundData, h.data_eq] at this

/-- **Values are added to a segment as far as there is room.** -/
theorem append_ok {s : Segment} {v : ValueVector} (h : s.Fills v) {source : ValueVector}
    {rows : Selection} {values : List Scalar} (hl : ValueVector.Lists source rows values)
    (taken : Nat) (hok : (s.append source rows).1 = .ok taken) :
    ∃ v', (s.append source rows).2.Fills v' ∧ (s.append source rows).2.type = s.type ∧
      (s.append source rows).2.start = s.start ∧
      (s.append source rows).2.count = s.count + taken ∧
      (s.append source rows).2.capacity = s.capacity ∧
      (s.append source rows).2.overlay = s.overlay ∧
      taken = min (s.capacity - s.count) values.length ∧
      (∀ i, i < s.count → v'.get? i = v.get? i) ∧
      ∀ k, k < taken → v'.get? (s.count + k) = values[k]? := by
  obtain ⟨hv, ht, hc, hle⟩ := h.vector
  obtain ⟨hext, hcopied⟩ := ValueVector.copyRows_cases hv s.count source
    (rows.take (s.capacity - s.count))
  obtain ⟨hresult, hbuffer⟩ :=
    fill_eq hv source s.count s.statistics (rows.take (s.capacity - s.count))
  have hlen : rows.length = values.length := by simpa using congrArg List.length hl
  unfold append at hok ⊢
  rw [h.data_eq] at hok ⊢
  dsimp only at hok ⊢
  generalize fill source s.count v s.statistics (rows.take (s.capacity - s.count)) = x
    at hok hresult hbuffer ⊢
  obtain ⟨_ | ⟨⟨⟩⟩, b, t⟩ := x
  · cases hok
  simp only [Except.ok.injEq, List.length_take, hlen] at hok
  simp only at hresult hbuffer
  obtain ⟨copied, hcl, -, -, hholds⟩ := hcopied hresult.symm
  obtain rfl : copied = values.take (s.capacity - s.count) := by
    have : (values.take (s.capacity - s.count)).map some = copied.map some := by
      rw [← hcl, List.map_take, ← hl, List.map_take]
    exact (List.map_injective_iff.mpr (fun _ _ h => Option.some.inj h) this).symm
  subst hbuffer
  refine ⟨_, ⟨⟨h.sound.ascending, fun r hr => ?_, ?_⟩, rfl⟩, rfl, rfl, ?_, rfl, rfl, hok.symm,
    fun i hi => hext.get?_eq i hi (by omega), fun k hk => ?_⟩
  · exact h.sound.chain_nil r (by simp only at hr; omega)
  · refine ⟨hext.sound, hext.type_eq.trans ht, hext.capacity_eq.trans hc, ?_⟩
    simp only [List.length_take, hlen]
    omega
  · simp only [List.length_take, hlen, hok]
  · have hk' : k < (values.take (s.capacity - s.count)).length := by
      simp only [List.length_take]
      omega
    rw [hholds k _ (List.getElem?_eq_getElem hk'), ← List.getElem?_eq_getElem hk',
      List.getElem?_take_of_lt (by omega)]

/-- **A segment that is sealed keeps its values.** -/
theorem toSealed_ok {s t : Segment} {v : ValueVector} (h : s.Fills v) {preferred : Scheme}
    (hok : s.toSealed preferred = .ok t) :
    ∃ image, t = { s with capacity := s.count, data := .sealed image (v.resize s.count) } ∧
      t.Sound ∧ ∀ i, i < s.count → (v.resize s.count).get? i = v.get? i := by
  obtain ⟨hv, ht, hc, hle⟩ := h.vector
  unfold toSealed at hok
  rw [h.data_eq] at hok
  dsimp only at hok
  cases hi : SegmentImage.encode v s.count preferred with
  | error e => rw [hi] at hok; cases hok
  | ok image =>
    rw [hi] at hok
    cases hok
    exact ⟨image, rfl, ⟨h.sound.ascending, h.sound.chain_nil, ValueVector.sound_resize hv _,
      (ValueVector.type_resize v _).trans ht, ValueVector.capacity_resize v _⟩,
      fun i hi => ValueVector.get?_resize hv (by omega) hi⟩

end Segment

namespace Column

/-! ## Reading a row -/

/-- The value that a row was filled with. -/
def under (c : Column) (source : Source) (row : Nat) : Except StorageError Scalar := do
  let (_, s, i) ← c.locate row
  s.under source i

/-- The value that a reader gets from a row. -/
def value (c : Column) (source : Source) (row : Nat) (s : Snapshot) : Except StorageError Scalar :=
  readOver (c.under source row) (c.chain row) s

/-- **A reader gets the newest version that it sees, and else the value under the updates.** -/
theorem fetch_result (c : Column) (source : Source) (row : Nat) (snapshot : Snapshot) :
    (c.fetch source row snapshot).result = c.value source row snapshot := by
  unfold fetch value chain under
  rw [Reading.result_bind, Reading.result_of]
  cases c.locate row with
  | error e => rfl
  | ok found => exact Segment.fetch_result _ _ _ _

/-- Where a row is found depends on where the segments end. -/
theorem findIdx?_congr {segments segments' : List Segment}
    (h : List.Forall₂ (fun s s' => s'.stop = s.stop) segments segments') (row : Nat) :
    segments'.findIdx? (row < ·.stop) = segments.findIdx? (row < ·.stop) := by
  induction h with
  | nil => rfl
  | cons hs _ ih => simp only [List.findIdx?_cons, hs, ih]

/-- **Updates do not change what is under them.** -/
theorem Keeps.under_eq {c c' : Column} (h : Keeps c c') (source : Source) (row : Nat) :
    c'.under source row = c.under source row := by
  unfold under locate segmentIndex?
  rw [h.rows_eq, findIdx?_congr (h.segments.imp fun _ _ hr => hr.stop_eq)]
  split
  · rfl
  · rename_i i _
    cases hs : c.segments[i]? with
    | some s =>
      obtain ⟨s', hs', hr⟩ := exists_right_of_forall₂ h.segments hs
      rw [hs']
      simp only [bind, Except.bind, hr.start_eq]
      exact Segment.under_revises hr _ _
    | none =>
      have hnone : c'.segments[i]? = none := by
        rw [List.getElem?_eq_none_iff, ← h.segments.length_eq, ← List.getElem?_eq_none_iff, hs]
      rw [hnone]

end Column
end ColumnStore
