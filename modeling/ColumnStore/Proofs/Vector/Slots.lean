/-
# Slots of a vector

A vector of values that are no lists is an array of independent slots.  `Sound` says what such a
vector looks like, `set_ok` that a value of its type can be written to any slot, and the lemmas
behind it that a slot holds what was written to it last.

What copying from one vector to another does depends on the values read, and not on the vector that
they are read from (`copyRows_congr`).
-/

import ColumnStore.Vector.Chunk
import Mathlib.Data.List.Basic
import Mathlib.Tactic.Common

namespace ColumnStore

/-! ## Marks -/

namespace Validity

/-- Where marks are kept, there are as many as the capacity asks for. -/
def Sound (v : Validity) : Prop := ∀ marks, v.marks = some marks → marks.size = markCount v.capacity

theorem sound_new (n : Nat) : (new n).Sound := fun _ h => nomatch h

theorem sound_reset (v : Validity) : v.reset.Sound := fun _ h => nomatch h

theorem le_markCount (n : Nat) : n ≤ markCount n := by
  unfold markCount
  omega

theorem get?_of_lt {v : Validity} (h : v.Sound) {i : Nat} (hi : i < v.capacity) :
    ∃ b, v.get? i = some b := by
  have := le_markCount v.capacity
  cases hm : v.marks with
  | none => exact ⟨true, by simp [get?, hm]⟩
  | some marks =>
    have hs := h marks hm
    exact ⟨marks[i], by simp [get?, hm, show i < marks.size by omega]⟩

/-- The number of marks that are kept, or made with the first one. -/
theorem size_marks {v : Validity} (h : v.Sound) :
    (v.marks.getD (Array.replicate (markCount v.capacity) true)).size = markCount v.capacity := by
  cases hm : v.marks with
  | none => exact Array.size_replicate
  | some marks => exact h marks hm

/-- **A mark that is made,** also past the capacity: the slot is `NULL`, and the others are as they
were. -/
theorem setNull?_eq_some {v v' : Validity} (h : v.Sound) {i : Nat} (hok : v.setNull? i = some v') :
    v'.Sound ∧ v'.capacity = v.capacity ∧
      ∀ j, v'.get? j = some false ↔ j = i ∨ v.get? j = some false := by
  rw [setNull?] at hok
  split at hok
  · rename_i hi
    obtain rfl := Option.some.inj hok
    refine ⟨?_, rfl, fun j => ?_⟩
    · rintro _ ⟨⟩
      rw [Array.size_setIfInBounds, size_marks h]
    · rw [get?]
      dsimp only
      rw [Array.getElem?_setIfInBounds]
      by_cases hj : i = j
      · rw [if_pos hj, if_pos hi]
        exact iff_of_true rfl (.inl hj.symm)
      · rw [if_neg hj, or_iff_right (Ne.symm hj), get?]
        cases hm : v.marks with
        | none => simp [Array.getElem?_replicate]
        | some marks => rfl
  · cases hok

/-- The slots that have a mark, or get one with the first. -/
theorem isSome_setNull? {v : Validity} (h : v.Sound) (i : Nat) :
    (v.setNull? i).isSome = true ↔ i < markCount v.capacity := by
  rw [setNull?, size_marks h]
  split <;> simp_all

/-- **A slot is marked valid,** and the others are as they were. -/
theorem setValid?_eq_some {v v' : Validity} (h : v.Sound) {i : Nat} (hok : v.setValid? i = some v') :
    v'.Sound ∧ v'.capacity = v.capacity ∧
      ∀ j, v'.get? j = some false ↔ j ≠ i ∧ v.get? j = some false := by
  rw [setValid?] at hok
  cases hm : v.marks with
  | none =>
    rw [hm] at hok
    obtain rfl := Option.some.inj hok
    simp [h, get?, hm]
  | some marks =>
    rw [hm] at hok
    dsimp only at hok
    split at hok
    · rename_i hi
      obtain rfl := Option.some.inj hok
      refine ⟨?_, rfl, fun j => ?_⟩
      · rintro _ ⟨⟩
        rw [Array.size_setIfInBounds, h marks hm]
      · rw [get?, get?, hm]
        dsimp only
        rw [Array.getElem?_setIfInBounds]
        by_cases hj : i = j
        · rw [if_pos hj, if_pos hi]
          simp [hj]
        · rw [if_neg hj]
          exact (and_iff_right (Ne.symm hj)).symm
    · cases hok

theorem mark_eq {a b : Bool} (h : some a = some false ↔ some b = some false) : a = b := by
  cases a <;> cases b <;> simp_all

/-- Marks of a slot that are `NULL` in both or in neither are the same. -/
theorem get?_congr {v v' : Validity} (h : v.Sound) (h' : v'.Sound) (hc : v'.capacity = v.capacity)
    {i : Nat} (hi : i < v.capacity) (heq : v'.get? i = some false ↔ v.get? i = some false) :
    v'.get? i = v.get? i := by
  obtain ⟨b, hb⟩ := get?_of_lt h hi
  obtain ⟨b', hb'⟩ := get?_of_lt h' (hc ▸ hi)
  rw [hb, hb'] at heq ⊢
  rw [mark_eq heq]

/-- **A slot can be marked `NULL`,** and all others keep their marks. -/
theorem setNull?_of_lt {v : Validity} (h : v.Sound) {i : Nat} (hi : i < v.capacity) :
    ∃ v', v.setNull? i = some v' ∧ v'.Sound ∧ v'.capacity = v.capacity ∧
      v'.get? i = some false ∧ ∀ j, j ≠ i → j < v.capacity → v'.get? j = v.get? j := by
  obtain ⟨v', hok⟩ := Option.isSome_iff_exists.mp
    ((isSome_setNull? h i).mpr (Nat.lt_of_lt_of_le hi (le_markCount _)))
  obtain ⟨hs, hc, hnull⟩ := setNull?_eq_some h hok
  exact ⟨v', hok, hs, hc, (hnull i).mpr (.inl rfl), fun j hj hlt =>
    get?_congr h hs hc hlt ((hnull j).trans (or_iff_right hj))⟩

/-- **A slot can be marked valid,** and all others keep their marks. -/
theorem setValid?_of_lt {v : Validity} (h : v.Sound) {i : Nat} (hi : i < v.capacity) :
    ∃ v', v.setValid? i = some v' ∧ v'.Sound ∧ v'.capacity = v.capacity ∧
      v'.get? i = some true ∧ ∀ j, j ≠ i → j < v.capacity → v'.get? j = v.get? j := by
  obtain ⟨v', hok⟩ : ∃ v', v.setValid? i = some v' := by
    cases hm : v.marks with
    | none => exact ⟨v, by rw [setValid?, hm]⟩
    | some marks =>
      have hlt : i < marks.size := h marks hm ▸ Nat.lt_of_lt_of_le hi (le_markCount _)
      exact ⟨_, by rw [setValid?, hm]; exact if_pos hlt⟩
  obtain ⟨hs, hc, hnull⟩ := setValid?_eq_some h hok
  refine ⟨v', hok, hs, hc, ?_, fun j hj hlt =>
    get?_congr h hs hc hlt ((hnull j).trans (and_iff_right hj))⟩
  obtain ⟨valid, hvalid⟩ := get?_of_lt hs (hc ▸ hi)
  cases valid with
  | true => exact hvalid
  | false => exact absurd rfl ((hnull i).mp hvalid).1

theorem sound_resize (v : Validity) (n : Nat) : (v.resize n).Sound := by
  intro marks hm
  simp only [resize, Option.map_eq_some_iff] at hm
  obtain ⟨m, hv, rfl⟩ := hm
  simp only [resize, Array.size_append, Array.size_replicate, Array.take_eq_extract,
    Array.size_extract]
  omega

theorem markCount_mono {n m : Nat} (h : n ≤ m) : markCount n ≤ markCount m := by
  unfold markCount
  omega

/-- **A mark after a change of the capacity:** in the blocks that are kept it is what it was, also
past the capacity, and in new blocks every slot is valid. -/
theorem get?_resize_of_lt_markCount (v : Validity) {n i : Nat} (hi : i < markCount n) :
    (v.resize n).get? i = some ((v.get? i).getD true) := by
  cases hm : v.marks with
  | none => simp [get?, resize, hm]
  | some marks =>
    simp only [get?, resize, hm, Option.map_some, Array.take_eq_extract]
    rcases Nat.lt_or_ge i marks.size with hold | hnew
    · rw [Array.getElem?_append_left (by simp only [Array.size_extract]; omega),
        Array.getElem?_extract, if_pos (by omega), Nat.zero_add, Array.getElem?_eq_getElem hold]
      rfl
    · rw [Array.getElem?_append_right (by simp only [Array.size_extract]; omega),
        Array.getElem?_replicate, if_pos (by simp only [Array.size_extract]; omega),
        Array.getElem?_eq_none hnew]
      rfl

/-- A slot past the blocks that are kept is never `NULL`. -/
theorem get?_resize_of_markCount_le (v : Validity) {n i : Nat} (hi : markCount n ≤ i) :
    (v.resize n).get? i ≠ some false := by
  cases hm : v.marks with
  | none => simp [get?, resize, hm]
  | some marks =>
    simp only [get?, resize, hm, Option.map_some, Array.take_eq_extract]
    rw [Array.getElem?_eq_none
      (by simp only [Array.size_append, Array.size_extract, Array.size_replicate]; omega)]
    exact (Option.some_ne_none false).symm

/-- **The slots that are `NULL` after a change of the capacity** are those that were, in the blocks
that are kept. -/
theorem get?_resize_eq_false (v : Validity) {n i : Nat} :
    (v.resize n).get? i = some false ↔ i < markCount n ∧ v.get? i = some false := by
  rcases Nat.lt_or_ge i (markCount n) with hi | hi
  · rw [get?_resize_of_lt_markCount v hi, and_iff_right hi]
    cases v.get? i <;> simp
  · exact iff_of_false (get?_resize_of_markCount_le v hi) fun h => absurd h.1 (Nat.not_lt_of_le hi)

theorem get?_resize {v : Validity} (h : v.Sound) {n i : Nat} (hi : i < v.capacity) (hn : i < n) :
    (v.resize n).get? i = v.get? i := by
  obtain ⟨b, hb⟩ := get?_of_lt h hi
  rw [get?_resize_of_lt_markCount v (Nat.lt_of_lt_of_le hn (le_markCount n)), hb]
  rfl

/-- Only slots of whole blocks are `NULL`. -/
theorem lt_markCount_of_null {v : Validity} (h : v.Sound) {i : Nat} (hi : v.get? i = some false) :
    i < markCount v.capacity := by
  rw [get?] at hi
  cases hm : v.marks with
  | none =>
    rw [hm] at hi
    cases hi
  | some marks =>
    rw [hm] at hi
    obtain ⟨hlt, -⟩ := Array.getElem?_eq_some_iff.mp hi
    exact h marks hm ▸ hlt

/-- **Marks stay when a mask grows,** also those past the capacity. -/
theorem get?_resize_of_le {v : Validity} (h : v.Sound) {n : Nat} (hn : v.capacity ≤ n) (i : Nat) :
    (v.resize n).get? i = some false ↔ v.get? i = some false := by
  rw [get?_resize_eq_false]
  exact and_iff_right_of_imp fun hnull =>
    Nat.lt_of_lt_of_le (lt_markCount_of_null h hnull) (markCount_mono hn)

end Validity

/-! ## Slots -/

namespace ValueVector

/-- A vector of values that are no lists: a value of its type in every slot, and marks for all. -/
def Sound : ValueVector → Prop
  | .flat t marks slots =>
    t.isNested = false ∧ marks.Sound ∧ marks.capacity = slots.size ∧
      ∀ x ∈ slots, x.fits t = true ∧ x.isNull = false
  | .list .. => False

theorem blank_isNull (t : ColumnType) : (Scalar.blank t).isNull = false := by cases t <;> rfl

theorem sound_new {t : ColumnType} (h : t.isNested = false) (n : Nat) : (new t n).Sound := by
  have hflat : new t n = .flat t (.new n) (Array.replicate n (Scalar.blank t)) := by
    cases t <;> first | rfl | cases h
  rw [hflat]
  refine ⟨h, Validity.sound_new n, by simp [Validity.new], fun x hx => ?_⟩
  obtain ⟨-, rfl⟩ := Array.mem_replicate.mp hx
  exact ⟨Scalar.fits_blank t, blank_isNull t⟩

@[simp] theorem type_new (t : ColumnType) (n : Nat) : (new t n).type = t := by
  induction t with
  | list item ih => simp [new, type, ih]
  | _ => rfl

@[simp] theorem capacity_new (t : ColumnType) (n : Nat) : (new t n).capacity = n := by
  cases t <;> simp [new, capacity]

@[simp] theorem type_withValidity (v : ValueVector) (marks : Validity) :
    (v.withValidity marks).type = v.type := by cases v <;> rfl

@[simp] theorem capacity_withValidity (v : ValueVector) (marks : Validity) :
    (v.withValidity marks).capacity = v.capacity := by cases v <;> rfl

@[simp] theorem validity_withValidity (v : ValueVector) (marks : Validity) :
    (v.withValidity marks).validity = marks := by cases v <;> rfl

/-- Every slot of a sound vector has a value of its type. -/
theorem get?_of_lt {v : ValueVector} (h : v.Sound) {i : Nat} (hi : i < v.capacity) :
    ∃ x, v.get? i = some x ∧ x.fits v.type = true := by
  cases v with
  | list => exact absurd h not_false
  | flat t marks slots =>
    obtain ⟨-, hv, hc, hx⟩ := h
    simp only [capacity] at hi
    obtain ⟨b, hb⟩ := Validity.get?_of_lt hv (i := i) (by omega)
    cases b with
    | false => exact ⟨.null, by simp [get?, validity, hb], rfl⟩
    | true =>
      refine ⟨slots[i], by simp [get?, validity, hb, raw?, hi], ?_⟩
      exact (hx _ (Array.getElem_mem hi)).1

/-- A vector of values of its type. -/
def Typed (v : ValueVector) : Prop := ∀ i x, v.get? i = some x → x.fits v.type = true

/-- **A sound vector has values of its type.** -/
theorem Sound.typed {v : ValueVector} (h : v.Sound) : v.Typed := by
  intro i x hx
  cases v with
  | list => cases h
  | flat t marks slots =>
    unfold get? at hx
    split at hx
    · cases hx
    · obtain rfl := Option.some.inj hx
      rfl
    · exact (h.2.2.2 x (Array.mem_of_getElem? hx)).1

theorem set_of_le {v : ValueVector} {i : Nat} (h : v.capacity ≤ i) (x : Scalar) :
    v.set i x = (.error (.indexOutOfBounds i v.capacity), v) := by
  unfold set
  exact if_pos h

/-- Writing a value that is neither `NULL` nor a list. -/
theorem set_flat {t : ColumnType} {marks : Validity} {slots : Array Scalar} {i : Nat} {x : Scalar}
    (hi : i < slots.size) (hn : x ≠ .null) (hl : ∀ items, x ≠ .list items) :
    (flat t marks slots).set i x =
      if x.fits t then
        match marks.setValid? i with
        | some marks' => (.ok (), .flat t marks' (slots.setIfInBounds i x))
        | none => (.error .outOfRange, .flat t marks slots)
      else (.error (.typeMismatch t x.render), .flat t marks slots) := by
  have hcap : ¬(flat t marks slots).capacity ≤ i := by simp only [capacity]; omega
  cases x with
  | null => exact absurd rfl hn
  | list items => exact absurd rfl (hl items)
  | _ => unfold set; exact if_neg hcap

/-- **A value of the type of a vector can be written to any slot,** which then holds it; all other
slots keep what they hold. -/
theorem set_ok {v : ValueVector} (h : v.Sound) {i : Nat} (hi : i < v.capacity) {x : Scalar}
    (hx : x.fits v.type = true) :
    ∃ v', v.set i x = (.ok (), v') ∧ v'.Sound ∧ v'.type = v.type ∧ v'.capacity = v.capacity ∧
      v'.get? i = some x ∧ ∀ j, j ≠ i → j < v.capacity → v'.get? j = v.get? j := by
  cases v with
  | list => exact absurd h not_false
  | flat t marks slots =>
    obtain ⟨ht, hv, hc, hs⟩ := h
    simp only [capacity, type] at hi hx
    by_cases hn : x = .null
    · obtain ⟨v', he, hv', hc', hself, hother⟩ :=
        Validity.setNull?_of_lt hv (i := i) (by omega)
      refine ⟨.flat t v' slots, ?_, ⟨ht, hv', by omega, hs⟩, rfl, rfl, ?_, ?_⟩
      · rw [hn, set, if_neg (by simp only [capacity]; omega)]
        simp only [setNull?, validity, he, Option.map_some, withValidity]
      · simp [get?, validity, hself, hn]
      · intro j hj hlt
        simp only [get?, validity, raw?]
        rw [hother j hj (by simp only [capacity] at hlt; omega)]
    · obtain ⟨v', he, hv', hc', hself, hother⟩ :=
        Validity.setValid?_of_lt hv (i := i) (by omega)
      have hnull : x.isNull = false := by cases x <;> first | rfl | exact absurd rfl hn
      have hlist : ∀ items, x ≠ .list items := by
        rintro items rfl
        cases t <;> first | cases hx | cases ht
      have hset : (flat t marks slots).set i x =
          (.ok (), .flat t v' (slots.setIfInBounds i x)) := by
        rw [set_flat hi hn hlist, if_pos hx, he]
      refine ⟨.flat t v' (slots.setIfInBounds i x), hset, ⟨ht, hv', ?_, ?_⟩, rfl, ?_, ?_, ?_⟩
      · simp only [Array.size_setIfInBounds]; omega
      · intro y hy
        rcases Array.mem_or_eq_of_mem_setIfInBounds hy with hy | rfl
        · exact hs y hy
        · exact ⟨hx, hnull⟩
      · simp [capacity]
      · simp [get?, validity, hself, raw?, hi]
      · intro j hj hlt
        simp only [get?, validity, raw?]
        rw [hother j hj (by simp only [capacity] at hlt; omega),
          Array.getElem?_setIfInBounds, if_neg (Ne.symm hj)]

/-- **A value of another type is refused,** and nothing changes. -/
theorem set_refused {v : ValueVector} (h : v.Sound) {i : Nat} {x : Scalar}
    (hx : x.fits v.type = false) : ∃ e, v.set i x = (.error e, v) := by
  by_cases hi : v.capacity ≤ i
  · exact ⟨_, set_of_le hi x⟩
  · cases v with
    | list => exact absurd h not_false
    | flat t marks slots =>
      simp only [type] at hx
      simp only [capacity] at hi
      by_cases hn : x = .null
      · rw [hn] at hx
        cases hx
      · by_cases hl : ∃ items, x = .list items
        · obtain ⟨items, rfl⟩ := hl
          refine ⟨.typeMismatch t (Scalar.list items).render, ?_⟩
          unfold set
          exact if_neg hi
        · refine ⟨.typeMismatch t x.render, ?_⟩
          rw [set_flat (by omega) hn fun items he => hl ⟨items, he⟩, hx]
          rfl

/-- What a vector holds from a slot on. -/
def Holds (v : ValueVector) (start : Nat) (values : List Scalar) : Prop :=
  ∀ k x, values[k]? = some x → v.get? (start + k) = some x

/-- A vector that differs from another in the slots from `start` on at most. -/
structure Extends (v v' : ValueVector) (start : Nat) : Prop where
  sound : v'.Sound
  type_eq : v'.type = v.type
  capacity_eq : v'.capacity = v.capacity
  get?_eq : ∀ j, j < start → j < v.capacity → v'.get? j = v.get? j

theorem Extends.refl {v : ValueVector} (h : v.Sound) (start : Nat) : Extends v v start :=
  ⟨h, rfl, rfl, fun _ _ _ => rfl⟩

theorem Extends.trans {v v' v'' : ValueVector} {start start' : Nat} (h : Extends v v' start)
    (h' : Extends v' v'' start') (hle : start ≤ start') : Extends v v'' start :=
  ⟨h'.sound, h'.type_eq.trans h.type_eq, h'.capacity_eq.trans h.capacity_eq, fun j hj hc =>
    (h'.get?_eq j (by omega) (by have := h.capacity_eq; omega)).trans (h.get?_eq j hj hc)⟩

/-- **Writing to one slot:** either the slot is there and the value fits, and it is written, or
nothing changes. -/
theorem set_cases {v : ValueVector} (h : v.Sound) (i : Nat) (x : Scalar) :
    (∃ v', v.set i x = (.ok (), v') ∧ i < v.capacity ∧ x.fits v.type = true ∧ Extends v v' i ∧
        v'.get? i = some x ∧ ∀ j, j ≠ i → j < v.capacity → v'.get? j = v.get? j) ∨
      ∃ e, v.set i x = (.error e, v) := by
  by_cases hi : i < v.capacity
  · cases hx : x.fits v.type with
    | true =>
      obtain ⟨v', he, hs, ht, hc, hself, hother⟩ := set_ok h hi hx
      exact Or.inl ⟨v', he, hi, rfl, ⟨hs, ht, hc, fun j hj hlt => hother j (by omega) hlt⟩, hself,
        hother⟩
    | false => exact Or.inr (set_refused h hx)
  · exact Or.inr ⟨_, set_of_le (by omega) x⟩

/-! ## Copying -/

/-- A selection names rows that are there. -/
theorem verify_eq_ok {rows : Selection} {capacity : Nat} :
    rows.verify capacity = .ok () ↔ ∀ row ∈ rows, row < capacity := by
  rw [Selection.verify]
  cases hfind : rows.find? (capacity ≤ ·) with
  | none =>
    refine iff_of_true rfl fun row hrow => ?_
    have := List.find?_eq_none.mp hfind row hrow
    simpa using this
  | some row =>
    refine iff_of_false (by simp) fun hall => ?_
    have hlt := hall row (List.mem_of_find?_eq_some hfind)
    have hge := List.find?_some hfind
    simp only [decide_eq_true_eq] at hge
    omega

/-- The values of a vector in the order of a selection. -/
def Lists (source : ValueVector) (rows : Selection) (values : List Scalar) : Prop :=
  rows.map source.get? = values.map some

/-- Slots that have values list some. -/
theorem exists_lists {source : ValueVector} {rows : Selection} {P : Scalar → Prop}
    (h : ∀ r ∈ rows, ∃ x, source.get? r = some x ∧ P x) :
    ∃ values, source.Lists rows values ∧ ∀ x ∈ values, P x := by
  induction rows with
  | nil => exact ⟨[], rfl, fun _ hx => absurd hx List.not_mem_nil⟩
  | cons r rest ih =>
    obtain ⟨⟨x, hx, hP⟩, hrest⟩ := List.forall_mem_cons.mp h
    obtain ⟨values, hlists, hall⟩ := ih hrest
    refine ⟨x :: values, ?_, List.forall_mem_cons.mpr ⟨hP, hall⟩⟩
    rw [Lists, List.map_cons, List.map_cons, hx, hlists]

/-- The value of a slot stands where the slot does. -/
theorem Lists.getElem?_eq {source : ValueVector} {rows : Selection} {values : List Scalar}
    (h : source.Lists rows values) {k r : Nat} (hr : rows[k]? = some r) :
    values[k]? = source.get? r := by
  have hk := congrArg (·[k]?) (show rows.map source.get? = values.map some from h)
  simp only [List.getElem?_map, hr, Option.map_some] at hk
  obtain ⟨x, hx, heq⟩ := Option.map_eq_some_iff.mp hk.symm
  exact hx.trans heq

theorem copySlot_eq {v source : ValueVector} {i j : Nat} {x : Scalar}
    (h : source.get? j = some x) : v.copySlot i source j = v.set i x := by
  unfold copySlot
  split
  · rename_i hi
    exact (set_of_le hi x).symm
  · rw [h]

theorem copySlot_none {source : ValueVector} {j : Nat} (h : source.get? j = none) (v : ValueVector)
    (i : Nat) : ∃ e, v.copySlot i source j = (.error e, v) := by
  unfold copySlot
  split
  · exact ⟨_, rfl⟩
  · rw [h]
    exact ⟨_, rfl⟩

/-- **Copying rows** leaves the slots in front of them alone, and when it succeeds all values fit
and are found behind each other. -/
theorem copyRows_cases {v : ValueVector} (h : v.Sound) (start : Nat) (source : ValueVector)
    (rows : Selection) :
    Extends v (v.copyRows start source rows).2 start ∧
      ((v.copyRows start source rows).1 = .ok () → ∃ values, Lists source rows values ∧
        (rows ≠ [] → start + rows.length ≤ v.capacity) ∧ (∀ x ∈ values, x.fits v.type = true) ∧
          (v.copyRows start source rows).2.Holds start values) := by
  induction rows generalizing v start with
  | nil => exact ⟨Extends.refl h start, fun _ => ⟨[], rfl, by simp, by simp, by simp [Holds]⟩⟩
  | cons row rest ih =>
    unfold copyRows
    cases hg : source.get? row with
    | none =>
      obtain ⟨e, he⟩ := copySlot_none hg v start
      rw [he]
      exact ⟨Extends.refl h start, fun hok => nomatch hok⟩
    | some x =>
      rw [copySlot_eq hg]
      rcases set_cases h start x with ⟨v', he, hi, hx, hext, hself, -⟩ | ⟨e, he⟩
      · rw [he]
        dsimp only
        obtain ⟨hext', hok⟩ := ih hext.sound (start + 1)
        refine ⟨hext.trans hext' (by omega), fun hr => ?_⟩
        obtain ⟨values, hl, hroom, hfit, hholds⟩ := hok hr
        refine ⟨x :: values, ?_, ?_, ?_, ?_⟩
        · simp only [Lists, List.map_cons, hg]
          rw [hl]
        · intro _
          have := hext.capacity_eq
          cases rest with
          | nil => simp only [List.length_cons, List.length_nil]; omega
          | cons r rs =>
            have := hroom (List.cons_ne_nil r rs)
            simp only [List.length_cons] at this ⊢
            omega
        · intro y hy
          rcases List.mem_cons.mp hy with rfl | hy
          · exact hx
          · exact hext.type_eq ▸ hfit y hy
        · intro k y hk
          cases k with
          | zero =>
            have := hext.capacity_eq
            exact (hext'.get?_eq start (by omega) (by omega)).trans (hself.trans hk)
          | succ k =>
            rw [show start + (k + 1) = start + 1 + k by omega]
            exact hholds k y hk
      · rw [he]
        exact ⟨Extends.refl h start, fun hok => nomatch hok⟩

/-- **Values that fit can be copied** where there is room for them. -/
theorem copyRows_ok {v : ValueVector} (h : v.Sound) {start : Nat} {source : ValueVector}
    {rows : Selection} {values : List Scalar} (hl : Lists source rows values)
    (hroom : start + rows.length ≤ v.capacity) (hfit : ∀ x ∈ values, x.fits v.type = true) :
    (v.copyRows start source rows).1 = .ok () := by
  induction rows generalizing v start values with
  | nil => rfl
  | cons row rest ih =>
    cases values with
    | nil => simp [Lists] at hl
    | cons x values =>
      simp only [Lists, List.map_cons, List.cons.injEq] at hl
      simp only [List.length_cons] at hroom
      obtain ⟨v', he, hs, ht, hc, -, -⟩ :=
        set_ok h (i := start) (by omega) (hfit x List.mem_cons_self)
      unfold copyRows
      rw [copySlot_eq hl.1, he]
      exact ih hs hl.2 (by omega) fun y hy => ht ▸ hfit y (List.mem_cons_of_mem _ hy)

/-- **What copying does depends on the values alone.** -/
theorem copyRows_congr {source source' : ValueVector} {rows rows' : Selection}
    {values : List Scalar} (hl : Lists source rows values) (hl' : Lists source' rows' values)
    (v : ValueVector) (start : Nat) :
    v.copyRows start source rows = v.copyRows start source' rows' := by
  induction values generalizing rows rows' v start with
  | nil =>
    obtain rfl := List.map_eq_nil_iff.mp hl
    obtain rfl := List.map_eq_nil_iff.mp hl'
    rfl
  | cons x values ih =>
    cases rows with
    | nil => simp [Lists] at hl
    | cons row rest =>
      cases rows' with
      | nil => simp [Lists] at hl'
      | cons row' rest' =>
        simp only [Lists, List.map_cons, List.cons.injEq] at hl hl'
        unfold copyRows
        rw [copySlot_eq hl.1, copySlot_eq hl'.1]
        split
        · exact ih hl.2 hl'.2 _ _
        · rfl

/-! ## Growing -/

theorem type_resize (v : ValueVector) (n : Nat) : (v.resize n).type = v.type := by
  cases v <;> rfl

theorem validity_resize (v : ValueVector) (n : Nat) :
    (v.resize n).validity = v.validity.resize n := by cases v <;> rfl

theorem capacity_resize (v : ValueVector) (n : Nat) : (v.resize n).capacity = n := by
  cases v <;> simp only [resize, capacity, Array.size_append, Array.size_replicate,
    Array.take_eq_extract, Array.size_extract] <;> omega

/-- **Slots that stay keep what they hold.** -/
theorem sound_resize {v : ValueVector} (h : v.Sound) (n : Nat) : (v.resize n).Sound := by
  cases v with
  | list => exact absurd h not_false
  | flat t marks slots =>
    obtain ⟨ht, hv, hc, hs⟩ := h
    refine ⟨ht, Validity.sound_resize marks n, ?_, fun x hx => ?_⟩
    · exact (capacity_resize (.flat t marks slots) n).symm
    · rcases Array.mem_append.mp hx with hx | hx
      · rw [Array.take_eq_extract] at hx
        obtain ⟨k, hk, rfl⟩ := Array.mem_iff_getElem.mp hx
        rw [Array.getElem_extract]
        exact hs _ (Array.getElem_mem _)
      · obtain ⟨-, rfl⟩ := Array.mem_replicate.mp hx
        exact ⟨Scalar.fits_blank t, blank_isNull t⟩

theorem get?_resize {v : ValueVector} (h : v.Sound) {n i : Nat} (hi : i < v.capacity)
    (hn : i < n) : (v.resize n).get? i = v.get? i := by
  cases v with
  | list => exact absurd h not_false
  | flat t marks slots =>
    obtain ⟨ht, hv, hc, hs⟩ := h
    simp only [capacity] at hi
    simp only [get?, resize, validity, raw?, Validity.get?_resize hv (show i < marks.capacity by omega) hn]
    rw [Array.take_eq_extract, Array.getElem?_append_left (by simp only [Array.size_extract]; omega),
      Array.getElem?_extract, if_pos (by omega), Nat.zero_add]

end ValueVector
end ColumnStore
