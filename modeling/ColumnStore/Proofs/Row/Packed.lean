/-
# Packed rows hold their values

The slots of a layout do not overlap each other or the validity bits (`RowLayout.offset_le`), so
writing one column of a row leaves all others as they are, and all other rows (`PackedRows.store_ok`).
A row is written column by column (`PackedRows.Filled`), and each value is read back from it
(`PackedRows.get?_of_filled`).
-/

import ColumnStore.Proofs.Attempts
import ColumnStore.Proofs.Segment.Encoding
import ColumnStore.Row.Packed

namespace ColumnStore

/-! ## Parts of byte strings -/

namespace Bytes

variable {b new : Bytes} {start : Nat}

theorem slice?_of_le {n : Nat} (h : start + n ≤ b.length) :
    b.slice? start n = some ((b.drop start).take n) := if_pos h

theorem slice?_congr {b' : Bytes} {n : Nat} (hlen : b.length = b'.length)
    (h : ∀ i, start ≤ i → i < start + n → b[i]? = b'[i]?) : b.slice? start n = b'.slice? start n := by
  rw [slice?, slice?, hlen]
  split
  · refine congrArg some (List.ext_getElem? fun i => ?_)
    rw [List.getElem?_take, List.getElem?_take]
    split
    · rw [List.getElem?_drop, List.getElem?_drop, h _ (Nat.le_add_right _ _) (by omega)]
    · rfl
  · rfl

/-- A part of a part. -/
theorem slice?_slice? {part : Bytes} {n : Nat} (h : b.slice? start n = some part) {k m : Nat}
    (hk : k + m ≤ n) : b.slice? (start + k) m = part.slice? k m := by
  rw [slice?] at h
  split at h
  · rename_i hn
    obtain rfl := Option.some.inj h
    rw [slice?_of_le (by omega), slice?_of_le (by rw [List.length_take, List.length_drop]; omega),
      List.drop_take, List.take_take, List.drop_drop, Nat.min_eq_left (by omega)]
  · cases h

theorem slice?_append {n : Nat} {part : Bytes} (h : b.slice? start n = some part) (more : Bytes) :
    (b ++ more).slice? start n = some part := by
  rw [slice?] at h
  split at h
  · rename_i hn
    rw [slice?_of_le (by rw [List.length_append]; omega), ← h,
      List.drop_append_of_le_length (by omega),
      List.take_append_of_le_length (by rw [List.length_drop]; omega)]
  · cases h

theorem overwrite_of_le (h : start + new.length ≤ b.length) :
    b.overwrite start new = b.take start ++ new ++ b.drop (start + new.length) := by
  rw [overwrite, Nat.sub_eq_zero_of_le (by omega), List.replicate_zero, List.append_nil]

theorem length_overwrite (h : start + new.length ≤ b.length) :
    (b.overwrite start new).length = b.length := by
  rw [overwrite_of_le h, List.length_append, List.length_append, List.length_take, List.length_drop]
  omega

/-- **What was written is there.** -/
theorem slice?_overwrite (h : start + new.length ≤ b.length) :
    (b.overwrite start new).slice? start new.length = some new := by
  have htake : (b.take start).length = start := by
    rw [List.length_take]
    omega
  rw [slice?_of_le (by rw [length_overwrite h]; exact h), overwrite_of_le h, List.append_assoc,
    List.drop_left' htake, List.take_left]

/-- **All other bytes stay.** -/
theorem getElem?_overwrite (h : start + new.length ≤ b.length) {i : Nat}
    (hi : i < start ∨ start + new.length ≤ i) : (b.overwrite start new)[i]? = b[i]? := by
  rw [overwrite_of_le h]
  have htake : (b.take start).length = start := by
    rw [List.length_take]
    omega
  rcases hi with hi | hi
  · rw [List.append_assoc, List.getElem?_append_left (by omega), List.getElem?_take_of_lt hi]
  · rw [List.getElem?_append_right (by rw [List.length_append]; omega), List.getElem?_drop,
      List.length_append, htake]
    exact congrArg (b[·]?) (by omega)

/-- **Bytes that are written in front of others** leave these as they are. -/
theorem overwrite_append (a rest : Bytes) (h : start + new.length ≤ a.length) :
    (a ++ rest).overwrite start new = a.overwrite start new ++ rest := by
  rw [overwrite_of_le (by rw [List.length_append]; omega), overwrite_of_le h,
    List.take_append_of_le_length (by omega), List.drop_append_of_le_length h]
  simp only [List.append_assoc]

/-- Bytes that are written behind others leave these as they are. -/
theorem append_overwrite (a rest : Bytes) (h : start + new.length ≤ rest.length) :
    (a ++ rest).overwrite (a.length + start) new = a ++ rest.overwrite start new := by
  rw [overwrite_of_le (by rw [List.length_append]; omega), overwrite_of_le h,
    List.take_length_add_append, Nat.add_assoc, List.drop_length_add_append]
  simp only [List.append_assoc]

theorem slice?_append_left {a : Bytes} {n : Nat} (h : start + n ≤ a.length) (rest : Bytes) :
    (a ++ rest).slice? start n = a.slice? start n := by
  rw [slice?_of_le h]
  exact slice?_append (slice?_of_le h) rest

theorem slice?_append_right (a rest : Bytes) (start n : Nat) :
    (a ++ rest).slice? (a.length + start) n = rest.slice? start n := by
  simp only [slice?, List.length_append, List.drop_length_add_append, Nat.add_assoc,
    Nat.add_le_add_iff_left]

theorem slice?_self (b : Bytes) : b.slice? 0 b.length = some b := by
  rw [slice?_of_le (by omega), List.drop_zero, List.take_length]

/-- A part of some bytes and what lies around it. -/
theorem exists_parts {n : Nat} {part : Bytes} (h : b.slice? start n = some part) :
    ∃ front back, b = front ++ (part ++ back) ∧ front.length = start ∧ part.length = n := by
  rw [slice?] at h
  split at h
  · obtain rfl := Option.some.inj h
    refine ⟨b.take start, b.drop (start + n), ?_, by rw [List.length_take]; omega,
      by rw [List.length_take, List.length_drop]; omega⟩
    rw [← List.drop_drop, List.take_append_drop, List.take_append_drop]
  · cases h

end Bytes

/-! ## Layouts -/

namespace RowLayout

variable {l : RowLayout} {column : Nat}

/-- There is a layout for types that are not nested. -/
theorem new_ok {types : List ColumnType} (h : ∀ t ∈ types, t.isNested = false) :
    new types = .ok ⟨types⟩ := by
  have hfind : types.find? (·.storage.rowWidth?.isNone) = none :=
    List.find?_eq_none.mpr fun t ht => by
      have hflat := h t ht
      cases t <;> first | exact Bool.false_ne_true | cases hflat
  rw [new, hfind]

/-- Types that there is a layout for are not nested. -/
theorem of_new_ok {types : List ColumnType} (h : new types = .ok l) :
    l = ⟨types⟩ ∧ ∀ t ∈ types, t.isNested = false := by
  rw [new] at h
  split at h
  · cases h
  · rename_i hfind
    refine ⟨(Except.ok.inj h).symm, fun t ht => ?_⟩
    have hslot := List.find?_eq_none.mp hfind t ht
    cases t with
    | list item => exact absurd rfl hslot
    | _ => rfl

/-- Where the slot of a column starts. -/
def offset (l : RowLayout) (column : Nat) : Nat :=
  l.validityBytes + slotsWidth (l.types.take column)

theorem getElem?_offsetsFrom {start : Nat} {types : List ColumnType} {i : Nat}
    (h : i < types.length) :
    (offsetsFrom start types)[i]? = some (start + slotsWidth (types.take i)) := by
  induction types generalizing start i with
  | nil => cases h
  | cons t rest ih =>
    cases i with
    | zero => rfl
    | succ i =>
      rw [offsetsFrom, List.getElem?_cons_succ, ih (Nat.lt_of_succ_lt_succ h), List.take_succ_cons,
        slotsWidth, Nat.add_assoc]

theorem getElem?_offsets (h : column < l.types.length) : l.offsets[column]? = some (l.offset column) :=
  getElem?_offsetsFrom h

theorem slotsWidth_append (a b : List ColumnType) :
    slotsWidth (a ++ b) = slotsWidth a + slotsWidth b := by
  induction a with
  | nil => simp [slotsWidth]
  | cons t rest ih => rw [List.cons_append, slotsWidth, slotsWidth, ih, Nat.add_assoc]

theorem offset_succ {t : ColumnType} (h : l.types[column]? = some t) :
    l.offset (column + 1) = l.offset column + slotWidth t := by
  obtain ⟨hlt, rfl⟩ := List.getElem?_eq_some_iff.mp h
  rw [offset, offset, ← List.take_append_getElem hlt, slotsWidth_append, slotsWidth, slotsWidth,
    Nat.add_zero, Nat.add_assoc]

/-- **Slots follow each other.** -/
theorem offset_le {i j : Nat} (h : i ≤ j) : l.offset i ≤ l.offset j := by
  induction h with
  | refl => exact Nat.le_refl _
  | @step j _ ih =>
    refine Nat.le_trans ih ?_
    cases ht : l.types[j]? with
    | none =>
      have hall : l.types.take (j + 1) = l.types.take j := by
        rw [List.take_of_length_le (List.getElem?_eq_none_iff.mp ht),
          List.take_of_length_le (Nat.le_succ_of_le (List.getElem?_eq_none_iff.mp ht))]
      exact Nat.le_of_eq (by rw [offset, offset, hall])
    | some t =>
      rw [offset_succ ht]
      exact Nat.le_add_right _ _

theorem offset_length : l.offset l.types.length = l.width := by
  rw [offset, List.take_length, width]

/-- A slot ends in the row. -/
theorem slot_le {t : ColumnType} (h : l.types[column]? = some t) :
    l.offset column + slotWidth t ≤ l.width := by
  rw [← offset_succ h, ← offset_length]
  exact offset_le (List.getElem?_eq_some_iff.mp h).1

theorem validityBytes_le (l : RowLayout) (column : Nat) : l.validityBytes ≤ l.offset column :=
  Nat.le_add_right _ _

/-- The validity bit of a column is in front of all slots. -/
theorem bit_lt (h : column < l.types.length) : column / 8 < l.validityBytes := by
  rw [validityBytes]
  omega

/-! ## Validity bits -/

theorem length_setValid (b : Bytes) (start column : Nat) :
    (setValid b start column).length = b.length := List.length_modify _ _ _

theorem getElem?_setValid {b : Bytes} {start i : Nat} (h : i ≠ start + column / 8) :
    (setValid b start column)[i]? = b[i]? := List.getElem?_modify_ne _ _ (Ne.symm h)

/-- A bit that is set behind some bytes leaves these as they are. -/
theorem append_setValid (front back : Bytes) (d column : Nat) :
    setValid (front ++ back) (front.length + d) column = front ++ setValid back d column := by
  rw [setValid, setValid]
  induction front with
  | nil => rw [List.length_nil, Nat.zero_add, List.nil_append, List.nil_append]
  | cons x front ih =>
    rw [List.length_cons, Nat.add_right_comm front.length, Nat.add_right_comm (front.length + d),
      List.cons_append, List.modify_succ_cons, ih, List.cons_append]

/-- The bit of a row is set in the bytes of that row. -/
theorem setValid_append {row : Bytes} (front back : Bytes) (h : column / 8 < row.length) :
    setValid (front ++ (row ++ back)) front.length column =
      front ++ (setValid row 0 column ++ back) := by
  rw [setValid, setValid, Nat.zero_add, List.modify_eq_set_getElem?, List.modify_eq_set_getElem?,
    List.getElem?_append_right (Nat.le_add_right _ _), Nat.add_sub_cancel_left,
    List.getElem?_append_left h, List.getElem?_eq_getElem h]
  simp only [Option.map_eq_map, Option.map_some, Option.getD_some]
  rw [List.set_append_right _ _ (Nat.le_add_right _ _), Nat.add_sub_cancel_left,
    List.set_append_left _ _ h]

/-- **A bit that is set is read back,** and all others are as before. -/
theorem isValid?_setValid {row : Bytes} (h : column / 8 < row.length) (j : Nat) :
    isValid? (setValid row 0 column) j = if j = column then some true else isValid? row j := by
  rw [isValid?, isValid?]
  by_cases hbyte : j / 8 = column / 8
  · have hmod := Nat.mod_lt column (by decide : 8 > 0)
    have hbit : ∀ k, (UInt8.ofNat (1 <<< (column % 8))).toNat.testBit k = decide (column % 8 = k) := by
      intro k
      rw [Nat.one_shiftLeft, ← Nat.testBit_two_pow]
      refine congrArg (Nat.testBit · k) (UInt8.toNat_ofNat'.trans (Nat.mod_eq_of_lt ?_))
      exact Nat.pow_lt_pow_right (by decide) hmod
    rw [setValid, Nat.zero_add, hbyte, List.getElem?_modify_eq, List.getElem?_eq_getElem h,
      Option.map_eq_map, Option.map_some, Option.map_some, Option.map_some, UInt8.toNat_or,
      Nat.testBit_or, hbit]
    by_cases hj : j = column
    · simp [hj]
    · have hne : ¬column % 8 = j % 8 := by omega
      simp [hj, hne]
  · have hne : j ≠ column := fun hj => hbyte (congrArg (· / 8) hj)
    rw [getElem?_setValid (by rwa [Nat.zero_add]), if_neg hne]

end RowLayout

/-! ## Rows -/

namespace PackedRows

variable {p q : PackedRows} {l : RowLayout} {row heap : Bytes} {i column : Nat} {x : Scalar}
  {t : ColumnType}

/-- A row of a layout with every column `NULL`. -/
def emptyRow (l : RowLayout) : Bytes := List.replicate l.width 0

/-- Packed rows in which one row has other bytes. -/
structure Rewrites (p q : PackedRows) (i : Nat) (row : Bytes) : Prop where
  layout_eq : q.layout = p.layout
  size_eq : q.size = p.size
  length_eq : q.bytes.length = p.bytes.length
  row?_eq : ∀ j, q.row? j = if j = i then some row else p.row? j

/-- The place of a row in the bytes. -/
theorem parts_of_row? (h : p.row? i = some row) : ∃ front back,
    p.bytes = front ++ (row ++ back) ∧ front.length = p.start i ∧ row.length = p.layout.width := by
  rw [row?] at h
  split at h
  · exact Bytes.exists_parts h
  · cases h

/-- Rows whose bytes differ in the place of one row. -/
theorem rewrites_of_parts {front back row' : Bytes} (hrow : p.row? i = some row)
    (hbytes : p.bytes = front ++ (row ++ back)) (hfront : front.length = p.start i)
    (hlen : row'.length = row.length) (hrow' : row.length = p.layout.width)
    (hlayout : q.layout = p.layout) (hsize : q.size = p.size)
    (hq : q.bytes = front ++ (row' ++ back)) : p.Rewrites q i row' := by
  have hlt : i + 1 < UInt64.size := by
    rw [row?] at hrow
    split at hrow
    · assumption
    · cases hrow
  refine ⟨hlayout, hsize, by simp [hq, hbytes, hlen], fun j => ?_⟩
  rw [row?, row?, hq, hbytes, start, start, hlayout]
  rw [start] at hfront
  rcases Nat.lt_trichotomy j i with hj | rfl | hj
  · have hle : j * p.layout.width + p.layout.width ≤ front.length := by
      rw [hfront, ← Nat.succ_mul]
      exact Nat.mul_le_mul_right _ hj
    rw [if_neg (Nat.ne_of_lt hj), Bytes.slice?_append_left hle, Bytes.slice?_append_left hle]
  · have hself : (row' ++ back).slice? 0 row'.length = some row' := by
      rw [Bytes.slice?_append_left (by omega), Bytes.slice?_self]
    rw [← Bytes.slice?_append_right front, Nat.add_zero, hfront, hlen, hrow'] at hself
    rw [if_pos hlt, if_pos rfl, hself]
  · obtain ⟨d, rfl⟩ := Nat.exists_eq_add_of_lt hj
    have hplace : (i + d + 1) * p.layout.width =
        front.length + (p.layout.width + d * p.layout.width) := by
      rw [hfront, Nat.add_right_comm, Nat.add_mul, Nat.succ_mul, Nat.add_assoc]
    have hskip : ∀ part : Bytes, part.length = p.layout.width →
        (front ++ (part ++ back)).slice? ((i + d + 1) * p.layout.width) p.layout.width =
          back.slice? (d * p.layout.width) p.layout.width := fun part hpart => by
      rw [hplace, Bytes.slice?_append_right, ← hpart, Bytes.slice?_append_right]
    rw [if_neg (Nat.ne_of_gt hj), hskip _ (hlen.trans hrow'), hskip _ hrow']

/-- **A slot of a row is filled,** and all other rows stay. -/
theorem fill_ok (hrow : p.row? i = some row) (hcolumn : column < p.layout.types.length)
    {slot : Bytes} (hslot : p.layout.offset column + slot.length ≤ p.layout.width) :
    ∃ q, p.fill i column slot = (.ok (), q) ∧ q.heap = p.heap ∧
      p.Rewrites q i (RowLayout.setValid (row.overwrite (p.layout.offset column) slot) 0 column) := by
  obtain ⟨front, back, hbytes, hfront, hwidth⟩ := parts_of_row? hrow
  have hroom : p.layout.offset column + slot.length ≤ row.length := hwidth ▸ hslot
  have hbit : column / 8 < (row.overwrite (p.layout.offset column) slot).length := by
    have := RowLayout.bit_lt hcolumn
    have := p.layout.validityBytes_le column
    rw [Bytes.length_overwrite hroom]
    omega
  have hin : p.start i + p.layout.width ≤ p.bytes.length := by
    rw [hbytes, List.length_append, List.length_append, hfront, hwidth]
    omega
  have hfill : p.fill i column slot = (.ok (), { p with
      bytes := RowLayout.setValid (p.bytes.overwrite (p.start i + p.layout.offset column) slot)
        (p.start i) column }) := by
    rw [fill, RowLayout.getElem?_offsets hcolumn]
    exact if_pos ⟨hin, hslot⟩
  refine ⟨_, hfill, rfl, rewrites_of_parts hrow hbytes hfront ?_ hwidth rfl rfl ?_⟩
  · rw [RowLayout.length_setValid, Bytes.length_overwrite hroom]
  · dsimp only
    rw [hbytes, ← hfront, Bytes.append_overwrite _ _ (by rw [List.length_append]; omega),
      Bytes.overwrite_append _ _ hroom, RowLayout.setValid_append _ _ hbit]

/-- A slot holds a value: its bytes, or where its text is in the heap. -/
def InSlot (heap : Bytes) (x : Scalar) (slot : Bytes) : Prop :=
  match x with
  | .varchar s => ∃ start, start + (Bytes.ofString s).length < UInt32.size ∧
      slot = Bytes.ofNat 4 start ++ Bytes.ofNat 4 (Bytes.ofString s).length ∧
      heap.slice? start (Bytes.ofString s).length = some (Bytes.ofString s)
  | x => slot = x.fixed

/-- A text stays where it is when the heap grows. -/
theorem InSlot.grow {slot : Bytes} (h : InSlot heap x slot) (more : Bytes) :
    InSlot (heap ++ more) x slot := by
  cases x
  case varchar s =>
    obtain ⟨start, hlt, hslot, htext⟩ := h
    exact ⟨start, hlt, hslot, Bytes.slice?_append htext more⟩
  all_goals exact h

/-- The bytes of the text of a value. -/
def textOf (x : Scalar) : Bytes := x.text?.elim [] Bytes.ofString

/-- **A value is written to its slot,** its text behind the heap. -/
theorem store_ok (hrow : p.row? i = some row) (ht : p.layout.types[column]? = some t)
    (hfit : x.fits t = true) (hn : x.isNull = false) (hnested : t.isNested = false)
    (hheap : p.heap.length + (textOf x).length < UInt32.size) :
    ∃ slot q, p.store i column x = (.ok (), q) ∧ q.heap = p.heap ++ textOf x ∧
      p.Rewrites q i (RowLayout.setValid (row.overwrite (p.layout.offset column) slot) 0 column) ∧
      slot.length = RowLayout.slotWidth t ∧ InSlot (p.heap ++ textOf x) x slot := by
  have hcolumn := (List.getElem?_eq_some_iff.mp ht).1
  have hslot := RowLayout.slot_le ht
  have hfixed : (∀ s, x ≠ .varchar s) → x.fixed.length = RowLayout.slotWidth t := by
    intro hs
    have hvarchar : t ≠ .varchar := by
      rintro rfl
      cases x <;> first | exact hs _ rfl | cases hn; done | cases hfit
    obtain ⟨w, hw, -⟩ := SegmentImage.exists_width hnested hvarchar
    rw [Scalar.length_fixed hfit hn hw, RowLayout.slotWidth]
    cases t <;> first | exact (Option.some.inj hw).symm | exact absurd rfl hvarchar | cases hnested
  unfold store
  cases x
  case null => cases hn
  case list => cases t <;> first | cases hfit | cases hnested
  case varchar s =>
    obtain rfl : t = .varchar := by cases t <;> first | rfl | cases hfit
    have hlt : p.heap.length + (Bytes.ofString s).length < UInt32.size := hheap
    have hlen : (Bytes.ofNat 4 p.heap.length ++ Bytes.ofNat 4 (Bytes.ofString s).length).length =
        RowLayout.slotWidth .varchar := by
      rw [List.length_append, Bytes.length_ofNat, Bytes.length_ofNat]
      rfl
    -- the row is the same with the text behind the heap
    obtain ⟨q, hfill, hq, hrewrites⟩ :=
      @fill_ok { p with heap := p.heap ++ Bytes.ofString s } row i column hrow hcolumn
        (Bytes.ofNat 4 p.heap.length ++ Bytes.ofNat 4 (Bytes.ofString s).length) (hlen ▸ hslot)
    refine ⟨_, q, ?_, hq, ⟨hrewrites.layout_eq, hrewrites.size_eq, hrewrites.length_eq,
      hrewrites.row?_eq⟩, hlen, p.heap.length, hlt, rfl, ?_⟩
    · dsimp only
      rw [heapSlot, if_neg (Nat.not_le_of_lt hlt)]
      exact hfill
    · rw [Bytes.slice?_of_le (by rw [List.length_append]; exact Nat.le_refl _), List.drop_left]
      exact congrArg some (List.take_length ..)
  all_goals
    have hlen := hfixed fun s hs => by cases hs
    obtain ⟨q, hfill, hq, hrewrites⟩ := fill_ok hrow hcolumn (hlen ▸ hslot)
    exact ⟨_, q, hfill, hq.trans (List.append_nil _).symm, hrewrites, hlen, rfl⟩

/-- The columns of a row in front of a column hold values, and the others are `NULL`. -/
structure Filled (l : RowLayout) (values : Row) (column : Nat) (row heap : Bytes) : Prop where
  columns : values.length = l.types.length
  length : row.length = l.width
  valid : ∀ j x, values[j]? = some x →
    RowLayout.isValid? row j = some (decide (j < column) && !x.isNull)
  slots : ∀ j x t, values[j]? = some x → l.types[j]? = some t → j < column → x.isNull = false →
    ∃ slot, row.slice? (l.offset j) (RowLayout.slotWidth t) = some slot ∧ InSlot heap x slot

/-- An empty row has `NULL` in every column. -/
theorem filled_emptyRow (l : RowLayout) {values : Row} (hlen : values.length = l.types.length)
    (heap : Bytes) : Filled l values 0 (emptyRow l) heap where
  columns := hlen
  length := List.length_replicate
  valid j x hx := by
    have hj : j < l.types.length := hlen ▸ (List.getElem?_eq_some_iff.mp hx).1
    have hbit := RowLayout.bit_lt hj
    have hle : l.validityBytes ≤ l.width := Nat.le_add_right _ _
    rw [RowLayout.isValid?, emptyRow, List.getElem?_replicate_of_lt (by omega)]
    simp
  slots _ _ _ _ _ hj := absurd hj (Nat.not_lt_zero _)

/-- **A column is filled with `NULL`** by leaving it as it is. -/
theorem Filled.skip {values : Row} (h : Filled l values column row heap)
    (hx : values[column]? = some x) (hn : x.isNull = true) :
    Filled l values (column + 1) row heap where
  columns := h.columns
  length := h.length
  valid j y hy := by
    rw [h.valid j y hy]
    by_cases hj : j = column
    · obtain rfl : x = y := Option.some.inj (hx.symm.trans (hj ▸ hy))
      simp [hn]
    · exact congrArg (fun c => some (c && !y.isNull)) (decide_eq_decide.mpr (by omega))
  slots j y u hy hu hj hyn := by
    refine h.slots j y u hy hu (Nat.lt_of_le_of_ne (Nat.le_of_lt_succ hj) ?_) hyn
    rintro rfl
    obtain rfl : x = y := Option.some.inj (hx.symm.trans hy)
    rw [hn] at hyn
    cases hyn

/-- **A column is filled with a value,** and the others stay as they are. -/
theorem Filled.store {values : Row} (h : Filled l values column row heap)
    (hx : values[column]? = some x) (ht : l.types[column]? = some t) (hn : x.isNull = false)
    {slot more : Bytes} (hlen : slot.length = RowLayout.slotWidth t)
    (hslot : InSlot (heap ++ more) x slot) :
    Filled l values (column + 1)
      (RowLayout.setValid (row.overwrite (l.offset column) slot) 0 column) (heap ++ more) := by
  have hlt := (List.getElem?_eq_some_iff.mp ht).1
  have hbit := RowLayout.bit_lt hlt
  have hroom : l.offset column + slot.length ≤ row.length := by
    rw [hlen, h.length]
    exact RowLayout.slot_le ht
  have hfront : ∀ i < l.validityBytes, (row.overwrite (l.offset column) slot)[i]? = row[i]? :=
    fun i hi => Bytes.getElem?_overwrite hroom
      (.inl (Nat.lt_of_lt_of_le hi (l.validityBytes_le column)))
  have hbits : ∀ start n, l.validityBytes ≤ start →
      (RowLayout.setValid (row.overwrite (l.offset column) slot) 0 column).slice? start n =
        (row.overwrite (l.offset column) slot).slice? start n := fun start n hstart =>
    Bytes.slice?_congr (RowLayout.length_setValid _ _ _) fun i hi _ =>
      RowLayout.getElem?_setValid (by omega)
  have hwidth : l.validityBytes ≤ row.length := by
    have := l.validityBytes_le column
    omega
  refine ⟨h.columns, ?_, fun j y hy => ?_, fun j y u hy hu hj hyn => ?_⟩
  · rw [RowLayout.length_setValid, Bytes.length_overwrite hroom, h.length]
  · rw [RowLayout.isValid?_setValid (by rw [Bytes.length_overwrite hroom]; omega)]
    split
    · rename_i hj
      obtain rfl : x = y := Option.some.inj (hx.symm.trans (hj ▸ hy))
      simp [hj, hn]
    · rename_i hj
      have hbyte := RowLayout.bit_lt (h.columns ▸ (List.getElem?_eq_some_iff.mp hy).1)
      rw [RowLayout.isValid?, hfront _ hbyte]
      rw [← RowLayout.isValid?, h.valid j y hy]
      exact congrArg (fun c => some (c && !y.isNull)) (decide_eq_decide.mpr (by omega))
  · rw [hbits _ _ (l.validityBytes_le j)]
    rcases Nat.lt_or_eq_of_le (Nat.le_of_lt_succ hj) with hj | rfl
    · obtain ⟨old, hold, hin⟩ := h.slots j y u hy hu hj hyn
      refine ⟨old, ?_, hin.grow more⟩
      rw [← hold]
      refine Bytes.slice?_congr (Bytes.length_overwrite hroom) fun i hi hi' => ?_
      have hnext := RowLayout.offset_le (l := l) (Nat.succ_le_of_lt hj)
      rw [RowLayout.offset_succ hu] at hnext
      exact Bytes.getElem?_overwrite hroom (.inl (by omega))
    · obtain rfl : x = y := Option.some.inj (hx.symm.trans hy)
      obtain rfl : t = u := Option.some.inj (ht.symm.trans hu)
      exact ⟨slot, hlen ▸ Bytes.slice?_overwrite hroom, hslot⟩

/-- The length of all texts in a row. -/
def textLength (values : Row) : Nat := (values.flatMap textOf).length

theorem textLength_cons (x : Scalar) (rest : Row) :
    textLength (x :: rest) = (textOf x).length + textLength rest := by
  rw [textLength, List.flatMap_cons, List.length_append]
  rfl

variable {values : Row}

theorem InSlot.text {s : String} {slot : Bytes} (h : InSlot heap (.varchar s) slot) :
    ∃ start, slot.slice? 0 4 = some (Bytes.ofNat 4 start) ∧
      slot.slice? 4 4 = some (Bytes.ofNat 4 (Bytes.ofString s).length) ∧
      heap.slice? (Bytes.ofNat 4 start).toNat
        (Bytes.ofNat 4 (Bytes.ofString s).length).toNat = some (Bytes.ofString s) := by
  obtain ⟨start, hlt, rfl, htext⟩ := h
  have hnumber : ∀ n, n < UInt32.size → Bytes.toNat (Bytes.ofNat 4 n) = n := fun n hn =>
    (Bytes.toNat_ofNat 4 n).trans (Nat.mod_eq_of_lt hn)
  refine ⟨start, ?_, ?_, ?_⟩
  · rw [Bytes.slice?_of_le (by simp), List.drop_zero, List.take_left' (Bytes.length_ofNat 4 _)]
  · rw [Bytes.slice?_of_le (by simp), List.drop_left' (Bytes.length_ofNat 4 _),
      List.take_of_length_le (by simp)]
  · rw [hnumber _ (by omega), hnumber _ (by omega)]
    exact htext

/-- **A value is read from the slot that holds it.** -/
theorem get?_of_filled (hrow : p.row? i = some row)
    (h : Filled p.layout values values.length row p.heap)
    (hx : values[column]? = some x) (ht : p.layout.types[column]? = some t)
    (hfit : x.fits t = true) (hnested : t.isNested = false) :
    p.isValid? i column = some !x.isNull ∧ p.get? i column = some x := by
  have hcolumn := (List.getElem?_eq_some_iff.mp hx).1
  have hvalid : p.isValid? i column = some !x.isNull := by
    rw [isValid?, hrow, Option.bind_some, h.valid column x hx, decide_eq_true hcolumn, Bool.true_and]
  refine ⟨hvalid, ?_⟩
  rw [get?, hvalid]
  cases hn : x.isNull with
  | true => rw [Scalar.eq_null hn]; rfl
  | false =>
    obtain ⟨slot, hslot, hin⟩ := h.slots column x t hx ht hcolumn hn
    have hoffset := RowLayout.getElem?_offsets (List.getElem?_eq_some_iff.mp ht).1
    by_cases hvarchar : t = .varchar
    · subst hvarchar
      obtain ⟨s, rfl⟩ : ∃ s, x = .varchar s := by
        cases x <;> first | exact ⟨_, rfl⟩ | cases hn; done | cases hfit
      obtain ⟨start, hstart, hlength, htext⟩ := hin.text
      have hfirst := Bytes.slice?_slice? hslot (k := 0) (m := 4) (by decide)
      have hsecond := Bytes.slice?_slice? hslot (k := 4) (m := 4) (by decide)
      rw [Nat.add_zero, hstart] at hfirst
      rw [hlength] at hsecond
      simp only [Bool.not_false, ht, text?, hrow, hoffset, Option.bind_eq_bind, Option.bind_some,
        hfirst, hsecond, htext, Option.map_some, Utf8.decode_ofString]
      rfl
    · have hslotEq : slot = x.fixed := by
        cases x <;> first
          | exact hin
          | (cases t <;> first | exact absurd rfl hvarchar | cases hfit)
      obtain ⟨w, hw, -⟩ := SegmentImage.exists_width hnested hvarchar
      have hfixed : t.storage.isFixedWidth = true := by
        rw [StorageClass.isFixedWidth, hw]
        rfl
      have hread := Scalar.ofFixed_fixed hfit hn hfixed
      rw [hslotEq] at hslot
      simp only [Bool.not_false, ht, hrow, hoffset, Option.bind_eq_bind, Option.bind_some, hslot,
        Option.pure_def, hread]

end PackedRows
end ColumnStore
