/-
# Local rows

The columns of local rows have one capacity, with room for all of them (`Sound`).  Rows that are
added come behind the old ones, which stay as they are (`append_cases`).
-/

import ColumnStore.Proofs.Attempts
import ColumnStore.Proofs.Vector.Rows
import ColumnStore.Table.LocalRows

namespace ColumnStore
namespace LocalRows

/-- Columns of the given types, all with room for the rows. -/
structure Sound (l : LocalRows) (types : List ColumnType) : Prop where
  columns : List.Forall₂ (fun v t => v.Sound ∧ v.type = t ∧ v.capacity = l.capacity) l.columns types
  count_le : ∀ v ∈ l.columns, l.count ≤ v.capacity

theorem capacity_of_forall {columns : List ValueVector} {n : Nat} (count : Nat)
    (deleted : List Nat) (h : ∀ v ∈ columns, v.capacity = n) (hne : columns ≠ []) :
    capacity ⟨columns, count, deleted⟩ = n := by
  cases columns with
  | nil => exact absurd rfl hne
  | cons v rest => exact h v List.mem_cons_self

/-- Columns that were sound with one capacity stay so when each keeps type and capacity. -/
theorem sound_of {types : List ColumnType} {columns : List ValueVector} {count n : Nat}
    {deleted : List Nat}
    (h : List.Forall₂ (fun v t => v.Sound ∧ v.type = t ∧ v.capacity = n) columns types)
    (hc : count ≤ n) : Sound ⟨columns, count, deleted⟩ types := by
  have hall : ∀ v ∈ columns, v.capacity = n := by
    intro v hv
    obtain ⟨i, hi, rfl⟩ := List.mem_iff_getElem.mp hv
    exact ((List.forall₂_iff_get.mp h).2 i hi (h.length_eq ▸ hi)).2.2
  by_cases hne : columns = []
  · subst hne
    obtain rfl := List.forall₂_nil_left_iff.mp h
    exact ⟨.nil, by simp⟩
  · have hcap := capacity_of_forall count deleted hall hne
    exact ⟨hcap ▸ h, fun v hv => (hall v hv).symm ▸ hc⟩

theorem sound_new {types : List ColumnType} (h : ∀ t ∈ types, t.isNested = false) :
    (new types).Sound types := by
  refine sound_of (n := 0) ?_ (Nat.zero_le _)
  rw [List.forall₂_map_left_iff, List.forall₂_same]
  exact fun t ht => ⟨ValueVector.sound_new (h t ht) 0, ValueVector.type_new t 0,
    ValueVector.capacity_new t 0⟩

/-- The column with a number is sound and has room for the rows. -/
theorem Sound.column {l : LocalRows} {types : List ColumnType} (h : l.Sound types) {j : Nat}
    {t : ColumnType} (ht : types[j]? = some t) :
    ∃ v, l.columns[j]? = some v ∧ v.Sound ∧ v.type = t ∧ v.capacity = l.capacity ∧
      l.count ≤ v.capacity := by
  obtain ⟨hj, rfl⟩ := List.getElem?_eq_some_iff.mp ht
  have hlen := h.columns.length_eq
  have hj' : j < l.columns.length := by omega
  have := (List.forall₂_iff_get.mp h.columns).2 j hj' hj
  exact ⟨_, List.getElem?_eq_getElem hj', this.1, this.2.1, this.2.2,
    h.count_le _ (List.getElem_mem hj')⟩

theorem Sound.types_eq {l : LocalRows} {types : List ColumnType} (h : l.Sound types) :
    l.columns.map ValueVector.type = types := by
  have hc := h.columns
  clear h
  generalize l.columns = columns, l.capacity = n at hc
  induction hc with
  | nil => rfl
  | cons hv _ ih => rw [List.map_cons, hv.2.1, ih]

/-- A value of a row that is there fits its column. -/
theorem Sound.get? {l : LocalRows} {types : List ColumnType} (h : l.Sound types) {j i : Nat}
    {t : ColumnType} (ht : types[j]? = some t) (hi : i < l.count) :
    ∃ x, l.get? j i = some x ∧ x.fits t = true := by
  obtain ⟨v, hv, hs, rfl, -, hc⟩ := h.column ht
  obtain ⟨x, hx, hfit⟩ := ValueVector.get?_of_lt hs (i := i) (by omega)
  exact ⟨x, by rw [LocalRows.get?, hv]; exact hx, hfit⟩

/-! ## Adding rows -/

/-- **Copying slots to the end of columns** leaves what is in front of them alone. -/
theorem copyColumns_cases {columns : List ValueVector} (start : Nat) (slots : Selection)
    (sources : List ValueVector) (h : ∀ v ∈ columns, v.Sound) :
    List.Forall₂ (fun v v' => v.Extends v' start) columns
        (copyColumns start slots columns sources).2 ∧
      ((copyColumns start slots columns sources).1 = .ok () → columns.length = sources.length →
        ∀ (j : Nat) (source : ValueVector), sources[j]? = some source → ∃ v' values,
          (copyColumns start slots columns sources).2[j]? = some v' ∧ source.Lists slots values ∧
            v'.Holds start values) := by
  have hstay : ∀ {cs : List ValueVector}, (∀ v ∈ cs, v.Sound) →
      List.Forall₂ (fun v v' => v.Extends v' start) cs cs := fun hcs =>
    List.forall₂_same.mpr fun v hv => .refl (hcs v hv) start
  induction columns generalizing sources with
  | nil =>
    unfold copyColumns
    refine ⟨.nil, fun _ hlen j source hs => ?_⟩
    obtain rfl := List.length_eq_zero_iff.mp hlen.symm
    simp at hs
  | cons c cs ih =>
    cases sources with
    | nil =>
      unfold copyColumns
      exact ⟨hstay h, fun _ hlen => by simp at hlen⟩
    | cons v vs =>
      obtain ⟨hc, hcs⟩ := List.forall_mem_cons.mp h
      obtain ⟨hext, hcopied⟩ := ValueVector.copyRows_cases hc start v slots
      obtain ⟨hrest, hall⟩ := ih vs hcs
      unfold copyColumns
      rcases he : c.copyRows start v slots with ⟨e | ⟨⟨⟩⟩, c'⟩ <;> rw [he] at hext hcopied
      · exact ⟨.cons hext (hstay hcs), fun hok => nomatch hok⟩
      · refine ⟨.cons hext hrest, fun hok hlen j source hs => ?_⟩
        cases j with
        | zero =>
          obtain rfl : v = source := by simpa using hs
          obtain ⟨values, hl, -, -, hholds⟩ := hcopied rfl
          exact ⟨c', values, rfl, hl, hholds⟩
        | succ j => exact hall hok (by simpa using hlen) j source (by simpa using hs)

/-- What adding rows leaves as it is. -/
structure Keeps (l l' : LocalRows) (types : List ColumnType) : Prop where
  sound : l'.Sound types
  deleted_eq : l'.deleted = l.deleted
  get?_eq : ∀ j i, i < l.count → l'.get? j i = l.get? j i

/-- Columns with the values of local rows, and with room for `n` rows. -/
structure Grown (l : LocalRows) (types : List ColumnType) (columns : List ValueVector) (n : Nat) :
    Prop where
  sound : List.Forall₂ (fun v t => v.Sound ∧ v.type = t ∧ v.capacity = n) columns types
  count_le : l.count ≤ n
  get?_eq : ∀ j i, i < l.count → columns[j]?.bind (·.get? i) = l.get? j i

/-- **Columns grow** when there is no room in them. -/
theorem Sound.grown {l : LocalRows} {types : List ColumnType} (h : l.Sound types) {stop : Nat}
    (hle : l.count ≤ stop) : ∃ n, stop ≤ n ∧ Grown l types (if l.capacity < stop then
      l.columns.map (·.resize (max (max stop (l.count * 2)) 16)) else l.columns) n := by
  by_cases hcap : l.capacity < stop
  · rw [if_pos hcap]
    refine ⟨max (max stop (l.count * 2)) 16, by omega, ?_, by omega, fun j i hi => ?_⟩
    · rw [List.forall₂_map_left_iff]
      exact h.columns.imp fun v t hv => ⟨ValueVector.sound_resize hv.1 _,
        (ValueVector.type_resize v _).trans hv.2.1, ValueVector.capacity_resize v _⟩
    · rw [List.getElem?_map, LocalRows.get?]
      cases hj : l.columns[j]? with
      | none => rfl
      | some v =>
        obtain ⟨t, -, hs, -⟩ := exists_right_of_forall₂ h.columns hj
        have hcount := h.count_le v (List.mem_of_getElem? hj)
        exact ValueVector.get?_resize hs (by omega) (by omega)
  · rw [if_neg hcap]
    exact ⟨l.capacity, by omega, h.columns, by omega, fun _ _ _ => rfl⟩

/-- **What is copied behind the rows** leaves them as they are. -/
theorem Grown.extended {l : LocalRows} {types : List ColumnType} {columns columns' : List ValueVector}
    {n : Nat} (h : Grown l types columns n)
    (he : List.Forall₂ (fun v v' => v.Extends v' l.count) columns columns') :
    Grown l types columns' n := by
  refine ⟨forall₂_iff_getElem?.mpr ⟨he.length_eq.symm.trans h.sound.length_eq,
    fun j v' t hv' ht => ?_⟩, h.count_le, fun j i hi => (Eq.trans ?_ (h.get?_eq j i hi))⟩
  · obtain ⟨v, hv, hext⟩ := exists_left_of_forall₂ he hv'
    obtain ⟨-, htype, hcap⟩ := (forall₂_iff_getElem?.mp h.sound).2 j v t hv ht
    exact ⟨hext.sound, hext.type_eq.trans htype, hext.capacity_eq.trans hcap⟩
  · cases hj : columns[j]? with
    | none =>
      rw [List.getElem?_eq_none_iff, he.length_eq, ← List.getElem?_eq_none_iff] at hj
      rw [hj]
    | some v =>
      obtain ⟨v', hv', hext⟩ := exists_right_of_forall₂ he hj
      obtain ⟨t, -, -, -, hcap⟩ := exists_right_of_forall₂ h.sound hj
      rw [hv']
      exact hext.get?_eq i hi (hcap ▸ Nat.lt_of_lt_of_le hi h.count_le)

theorem Grown.keeps {l : LocalRows} {types : List ColumnType} {columns : List ValueVector} {n : Nat}
    (h : Grown l types columns n) {count : Nat} (hle : count ≤ n) :
    Keeps l ⟨columns, count, l.deleted⟩ types := ⟨sound_of h.sound hle, rfl, h.get?_eq⟩

/-- **Adding the rows of a chunk** puts them behind the old rows, or it is refused and adds none. -/
theorem append_cases {l : LocalRows} {types : List ColumnType} (h : l.Sound types) (c : Chunk) :
    (∃ e l', l.append c = (.error e, l') ∧ Keeps l l' types ∧ l'.count = l.count) ∨
      ∃ l', l.append c = (.ok (l.count, l.count + c.cardinality), l') ∧ Keeps l l' types ∧
        l'.count = l.count + c.cardinality ∧ c.columns.length = l.columns.length ∧
        ∀ (j : Nat) (source : ValueVector), c.columns[j]? = some source →
          ∃ values, source.Lists c.slots values ∧
            ∀ k x, values[k]? = some x → l'.get? j (l.count + k) = some x := by
  have hkeep : Keeps l l types := ⟨h, rfl, fun _ _ _ => rfl⟩
  unfold append
  by_cases hlen : c.columns.length = l.columns.length
  swap
  · exact Or.inl ⟨_, l, if_pos hlen, hkeep, rfl⟩
  rw [if_neg (not_not.mpr hlen)]
  cases checkTypes l.columns c.columns with
  | error e => exact Or.inl ⟨_, l, rfl, hkeep, rfl⟩
  | ok u =>
    dsimp only
    obtain ⟨n, hstop, hgrown⟩ := h.grown (Nat.le_add_right l.count c.cardinality)
    generalize (if l.capacity < l.count + c.cardinality then
      l.columns.map (·.resize (max (max (l.count + c.cardinality) (l.count * 2)) 16))
        else l.columns) = columns at hgrown ⊢
    have hsound : ∀ v ∈ columns, v.Sound := fun v hv => by
      obtain ⟨t, -, hs, -⟩ := exists_mem_right_of_forall₂ hgrown.sound hv
      exact hs
    have hcount : columns.length = c.columns.length :=
      (hgrown.sound.length_eq.trans h.columns.length_eq.symm).trans hlen.symm
    obtain ⟨hcopied, hall⟩ := copyColumns_cases l.count c.slots c.columns hsound
    generalize copyColumns l.count c.slots columns c.columns = y at hcopied hall ⊢
    obtain ⟨r, columns'⟩ := y
    have hkept := hgrown.extended hcopied
    cases r with
    | error e => exact Or.inl ⟨_, _, rfl, hkept.keeps hgrown.count_le, rfl⟩
    | ok _ =>
      refine Or.inr ⟨_, rfl, hkept.keeps hstop, rfl, hlen, fun j source hs => ?_⟩
      obtain ⟨v', values, hv', hl, hholds⟩ := hall rfl hcount j source hs
      refine ⟨values, hl, fun k x hk => ?_⟩
      rw [LocalRows.get?]
      dsimp only at hv' ⊢
      rw [hv']
      exact hholds k x hk

/-! ## Changing rows -/

/-- **A value that fits can be written over a column of a row.** -/
theorem set_ok {l : LocalRows} {types : List ColumnType} (h : l.Sound types) {j i : Nat}
    {t : ColumnType} (ht : types[j]? = some t) (hi : i < l.count) {x : Scalar}
    (hx : x.fits t = true) :
    ∃ l', l.set j i x = (.ok (), l') ∧ l'.Sound types ∧ l'.count = l.count ∧
      l'.deleted = l.deleted ∧
      ∀ k m, m < l.count → l'.get? k m = if k = j ∧ m = i then some x else l.get? k m := by
  obtain ⟨v, hv, hs, hvt, hcap, hc⟩ := h.column ht
  obtain ⟨v', he, hs', ht', hc', hself, hother⟩ :=
    ValueVector.set_ok hs (i := i) (by omega) (hvt.symm ▸ hx)
  have hjl := (List.getElem?_eq_some_iff.mp hv).1
  refine ⟨⟨l.columns.set j v', l.count, l.deleted⟩, by simp only [set, hv, he],
    sound_of (n := l.capacity) ?_ (by omega), rfl, rfl, fun k m hm => ?_⟩
  · rw [List.forall₂_iff_get]
    refine ⟨by simpa using h.columns.length_eq, fun k hk hk' => ?_⟩
    have hkl : k < l.columns.length := by simpa using hk
    have hold := (List.forall₂_iff_get.mp h.columns).2 k hkl hk'
    rw [List.get_eq_getElem, List.get_eq_getElem] at *
    rw [List.getElem_set]
    split
    · rename_i hjk
      subst hjk
      rw [(List.getElem?_eq_some_iff.mp hv).2] at hold
      exact ⟨hs', ht'.trans hold.2.1, hc'.trans hcap⟩
    · exact hold
  · rw [LocalRows.get?, LocalRows.get?]
    dsimp only
    by_cases hk : k = j
    · subst hk
      rw [List.getElem?_set_self hjl, hv]
      by_cases hmi : m = i
      · subst hmi
        rw [if_pos ⟨rfl, rfl⟩]
        exact hself
      · rw [if_neg fun hh => hmi hh.2]
        exact hother m hmi (by omega)
    · rw [List.getElem?_set_ne (Ne.symm hk), if_neg fun hh => hk hh.1]

theorem clearSlot_ok {v : ValueVector} (h : v.Sound) (i : Nat) :
    ((v.setNull? i).getD v).Sound ∧ ((v.setNull? i).getD v).type = v.type ∧
      ((v.setNull? i).getD v).capacity = v.capacity := by
  cases hn : v.setNull? i with
  | none => exact ⟨h, rfl, rfl⟩
  | some v' =>
    cases v with
    | list => exact absurd h not_false
    | flat t marks slots =>
      obtain ⟨ht, hv, hc, hs⟩ := h
      simp only [ValueVector.setNull?, ValueVector.validity, Option.map_eq_some_iff] at hn
      obtain ⟨marks', hm, rfl⟩ := hn
      -- Marks keep their number and the capacity they are for.
      have hmarks : marks'.Sound ∧ marks'.capacity = marks.capacity := by
        unfold Validity.setNull? at hm
        dsimp only at hm
        split at hm
        · obtain rfl := Option.some.inj hm
          refine ⟨?_, rfl⟩
          rintro m ⟨⟩
          rw [Array.size_setIfInBounds]
          cases hmm : marks.marks with
          | none => simp
          | some m => simpa using hv m hmm
        · cases hm
      exact ⟨⟨ht, hmarks.1, hmarks.2.trans hc, hs⟩, rfl, rfl⟩

theorem clearSlots_ok {v : ValueVector} (h : v.Sound) (slots : List Nat) :
    (slots.foldl (fun v i => (v.setNull? i).getD v) v).Sound ∧
      (slots.foldl (fun v i => (v.setNull? i).getD v) v).type = v.type ∧
      (slots.foldl (fun v i => (v.setNull? i).getD v) v).capacity = v.capacity := by
  induction slots generalizing v with
  | nil => exact ⟨h, rfl, rfl⟩
  | cons i rest ih =>
    obtain ⟨hs, ht, hc⟩ := clearSlot_ok h i
    obtain ⟨hs', ht', hc'⟩ := ih hs
    exact ⟨hs', ht'.trans ht, hc'.trans hc⟩

/-- **Rows at the end can be forgotten.** -/
theorem truncate_ok {l : LocalRows} {types : List ColumnType} (h : l.Sound types) {n : Nat}
    (hn : n ≤ l.count) : (l.truncate n).Sound types ∧ (l.truncate n).count = n := by
  unfold truncate
  split
  · exact ⟨h, by omega⟩
  · refine ⟨?_, rfl⟩
    by_cases hne : l.columns = []
    · have : types = [] := by
        have := h.columns
        rw [hne] at this
        exact List.forall₂_nil_left_iff.mp this
      subst this
      rw [hne]
      exact ⟨.nil, by simp [clearSlots]⟩
    · obtain ⟨v, hv⟩ := List.exists_mem_of_ne_nil _ hne
      have hle := h.count_le v hv
      obtain ⟨i, hi, rfl⟩ := List.mem_iff_getElem.mp hv
      have hcap : l.columns[i].capacity = l.capacity :=
        ((List.forall₂_iff_get.mp h.columns).2 i hi (h.columns.length_eq ▸ hi)).2.2
      refine sound_of (n := l.capacity) ?_ (by omega)
      rw [clearSlots, List.forall₂_map_left_iff]
      refine h.columns.imp fun w t hw => ?_
      obtain ⟨hs, ht, hc⟩ := clearSlots_ok hw.1 (List.range' n (l.count - n))
      exact ⟨hs, ht.trans hw.2.1, hc.trans hw.2.2⟩

/-- Vectors with the same values, each list in a slot of its own. -/
theorem mapM_slot_congr {vs vs' : List ValueVector} {i i' : Nat} (hlen : vs'.length = vs.length)
    (h : ∀ j : Nat, (vs'[j]?).bind (·.get? i') = (vs[j]?).bind (·.get? i)) :
    vs'.mapM (·.get? i') = vs.mapM (·.get? i) := by
  induction vs generalizing vs' with
  | nil =>
    obtain rfl := List.length_eq_zero_iff.mp hlen
    rfl
  | cons v vs ih =>
    cases vs' with
    | nil => cases hlen
    | cons v' vs' =>
      have hhead : v'.get? i' = v.get? i := h 0
      rw [List.mapM_cons, List.mapM_cons, hhead, ih (by simpa using hlen) fun j => h (j + 1)]

/-- Columns that agree in a slot have the same row there. -/
theorem row?_congr {l l' : LocalRows} {i : Nat} (hlen : l'.columns.length = l.columns.length)
    (h : ∀ j, l'.get? j i = l.get? j i) : l'.row? i = l.row? i := mapM_slot_congr hlen h

theorem sound_withDeleted {l : LocalRows} {types : List ColumnType} (h : l.Sound types)
    (deleted : List Nat) : Sound { l with deleted } types := ⟨h.columns, h.count_le⟩

end LocalRows
end ColumnStore
