/-
# Vectors of lists

The lists of a vector lie one behind the other in the vector of its items, each in a window of it, and
the items may be lists in turn (`ValueVector.Formed`).  A list is written behind all windows that are
in use, so no other slot sees it, also when it is refused at one of its items (`Formed.set`): by
induction on the type, as the items are written the same way.
-/

import ColumnStore.Proofs.Attempts
import ColumnStore.Proofs.Vector.Slots

namespace ColumnStore

/-- A list of items fits when every item does. -/
theorem Scalar.allFit_iff {xs : List Scalar} {t : ColumnType} :
    allFit xs t = true ↔ ∀ x ∈ xs, x.fits t = true := by
  induction xs with
  | nil => simp [allFit]
  | cons x xs ih => simp [allFit, ih]

/-- Values that are there one by one, as a list. -/
theorem exists_values {P : Nat → Scalar → Prop} {n : Nat} (h : ∀ k < n, ∃ x, P k x) :
    ∃ xs : List Scalar, xs.length = n ∧ ∀ k x, xs[k]? = some x → P k x := by
  induction n with
  | zero => exact ⟨[], rfl, fun k x hx => absurd hx (by simp)⟩
  | succ n ih =>
    obtain ⟨xs, hlen, hxs⟩ := ih fun k hk => h k (Nat.lt_succ_of_lt hk)
    obtain ⟨y, hy⟩ := h n (Nat.lt_succ_self n)
    refine ⟨xs ++ [y], by rw [List.length_append, hlen]; rfl, fun k x hx => ?_⟩
    rcases Nat.lt_or_ge k n with hk | hk
    · rw [List.getElem?_append_left (hlen ▸ hk)] at hx
      exact hxs k x hx
    · rw [List.getElem?_append_right (hlen ▸ hk), List.getElem?_singleton] at hx
      split at hx
      · obtain rfl : k = n := by omega
        exact Option.some.inj hx ▸ hy
      · cases hx

namespace ValueVector

variable {v v' : ValueVector} {live : Nat → Prop} {i n : Nat} {x : Scalar} {t : ColumnType}

/-! ## Slots and windows -/

/-- A vector in which every slot can be read.  The lists of live slots lie in the part of the items
that is filled, and the items there are live in turn; others may lie anywhere, as they may after a
reset. -/
inductive Formed : ValueVector → (Nat → Prop) → Prop where
  | flat {t : ColumnType} {marks : Validity} {slots : Array Scalar} {live : Nat → Prop}
      (sound : (ValueVector.flat t marks slots).Sound) : Formed (.flat t marks slots) live
  | list {marks : Validity} {windows : Array Window} {filled : Nat} {items : ValueVector}
      {live : Nat → Prop} (sound : marks.Sound) (capacity_eq : marks.capacity = windows.size)
      (filled_le : filled ≤ items.capacity)
      (within : ∀ (i : Nat) (w : Window), windows[i]? = some w → w.start + w.length ≤ items.capacity)
      (placed : ∀ (i : Nat) (w : Window), windows[i]? = some w → live i →
        marks.get? i = some true → w.start + w.length ≤ filled)
      (items_formed : Formed items (· < filled)) : Formed (.list marks windows filled items) live

/-- Fewer slots are live. -/
theorem Formed.mono {live' : Nat → Prop} (h : v.Formed live) (hsub : ∀ i, live' i → live i) :
    v.Formed live' := by
  cases h with
  | flat sound => exact .flat sound
  | list sound capacity_eq filled_le within placed items_formed =>
    exact .list sound capacity_eq filled_le within
      (fun i w hw hlive => placed i w hw (hsub i hlive)) items_formed

theorem Formed.marks (h : v.Formed live) :
    v.validity.Sound ∧ v.validity.capacity = v.capacity := by
  cases h with
  | flat sound => exact ⟨sound.2.1, sound.2.2.1⟩
  | list sound capacity_eq => exact ⟨sound, capacity_eq⟩

/-- A vector of values that are no lists has no windows. -/
theorem Sound.formed (h : v.Sound) (live : Nat → Prop) : v.Formed live := by
  cases v with
  | flat => exact .flat h
  | list => exact absurd h not_false

/-- **All slots of a new vector are live.** -/
theorem formed_new (t : ColumnType) (n : Nat) : (new t n).Formed fun _ => True := by
  induction t with
  | list item ih =>
    have hempty : ∀ (i : Nat) (w : Window), (Array.replicate n (⟨0, 0⟩ : Window))[i]? = some w →
        w.start + w.length = 0 := fun i w hw => by
      rw [Array.getElem?_replicate] at hw
      split at hw
      · obtain rfl := Option.some.inj hw
        rfl
      · cases hw
    exact .list (Validity.sound_new n) (by simp [Validity.new]) (Nat.zero_le _)
      (fun i w hw => by rw [hempty i w hw]; exact Nat.zero_le _)
      (fun i w hw _ _ => Nat.le_of_eq (hempty i w hw)) (ih.mono fun _ _ => trivial)
  | _ => exact (sound_new rfl n).formed _

/-- The items of a list are those in its window. -/
theorem raw?_list {marks : Validity} {windows : Array Window} {filled : Nat} {items : ValueVector} :
    (list marks windows filled items).raw? i = windows[i]?.bind fun w =>
      ((List.range w.length).mapM fun k => items.get? (w.start + k)).map Scalar.list := by
  rw [raw?]
  rfl

theorem get?_of_valid (h : v.validity.get? i = some true) : v.get? i = v.raw? i := by
  rw [get?, h]

theorem get?_of_null (h : v.validity.get? i = some false) : v.get? i = some .null := by
  rw [get?, h]

/-- **A list is read** from the items in its window. -/
theorem get?_list {marks : Validity} {windows : Array Window} {filled start : Nat}
    {items : ValueVector} {xs : List Scalar} (hvalid : marks.get? i = some true)
    (hw : windows[i]? = some ⟨start, xs.length⟩)
    (hread : ∀ k x, xs[k]? = some x → items.get? (start + k) = some x) :
    (list marks windows filled items).get? i = some (.list xs) := by
  have hitems : ∀ k ∈ List.range xs.length, items.get? (start + k) = some (xs.getD k .null) :=
    fun k hk => hread k _ (by
      rw [List.getD_eq_getElem?_getD, List.getElem?_eq_getElem (List.mem_range.mp hk)]
      rfl)
  have hxs : (List.range xs.length).map (xs.getD · .null) = xs := by
    refine List.ext_getElem (by simp) fun k hk hk' => ?_
    simp [hk']
  rw [get?_of_valid (v := .list marks windows filled items) hvalid, raw?_list, hw, Option.bind_some,
    mapM_eq_map hitems, hxs]
  rfl

/-- **Every slot has a value of its type.** -/
theorem Formed.get?_of_lt (h : v.Formed live) (hi : i < v.capacity) :
    ∃ x, v.get? i = some x ∧ x.fits v.type = true := by
  induction h generalizing i with
  | flat sound => exact ValueVector.get?_of_lt sound hi
  | @list marks windows filled items live sound capacity_eq filled_le within placed items_formed ih =>
    obtain ⟨b, hb⟩ := Validity.get?_of_lt sound (show i < marks.capacity by rw [capacity_eq]; exact hi)
    cases b with
    | false => exact ⟨.null, get?_of_null hb, rfl⟩
    | true =>
      obtain ⟨w, hw⟩ : ∃ w, windows[i]? = some w := ⟨_, Array.getElem?_eq_getElem hi⟩
      have hlt : ∀ k < w.length, w.start + k < items.capacity := fun k hk => by
        have := within i w hw
        omega
      obtain ⟨xs, hlen, hxs⟩ := exists_values fun k hk => ih (hlt k hk)
      have hwindow : windows[i]? = some ⟨w.start, xs.length⟩ := by rw [hw, hlen]
      refine ⟨.list xs, get?_list hb hwindow fun k x hx => (hxs k x hx).1, ?_⟩
      rw [type, Scalar.fits, Scalar.allFit_iff]
      intro x hx
      obtain ⟨k, hk⟩ := List.mem_iff_getElem?.mp hx
      exact (hxs k x hk).2

/-! ## What stays -/

/-- A vector with the same values in the slots that are kept; slots past the capacity count by their
marks. -/
structure Keeps (v v' : ValueVector) (kept : Nat → Prop) : Prop where
  type_eq : v'.type = v.type
  capacity_eq : v'.capacity = v.capacity
  null_iff : ∀ j, kept j → (v'.validity.get? j = some false ↔ v.validity.get? j = some false)
  get?_eq : ∀ j < v.capacity, kept j → v'.get? j = v.get? j

variable {kept kept' : Nat → Prop}

theorem Keeps.refl (v : ValueVector) (kept : Nat → Prop) : v.Keeps v kept :=
  ⟨rfl, rfl, fun _ _ => Iff.rfl, fun _ _ _ => rfl⟩

theorem Keeps.mono (h : v.Keeps v' kept) (hsub : ∀ j, kept' j → kept j) : v.Keeps v' kept' :=
  ⟨h.type_eq, h.capacity_eq, fun j hj => h.null_iff j (hsub j hj),
    fun j hlt hj => h.get?_eq j hlt (hsub j hj)⟩

theorem Keeps.trans {v'' : ValueVector} (h : v.Keeps v' kept) (h' : v'.Keeps v'' kept) :
    v.Keeps v'' kept :=
  ⟨h'.type_eq.trans h.type_eq, h'.capacity_eq.trans h.capacity_eq,
    fun j hj => (h'.null_iff j hj).trans (h.null_iff j hj),
    fun j hlt hj => (h'.get?_eq j (h.capacity_eq ▸ hlt) hj).trans (h.get?_eq j hlt hj)⟩

/-! ## Room -/

theorem raw?_resize (h : v.Formed live) (hi : i < v.capacity) (hn : i < n) :
    (v.resize n).raw? i = v.raw? i := by
  cases h with
  | @flat t marks slots =>
    rw [resize, raw?, raw?, Array.take_eq_extract,
      Array.getElem?_append_left (by simp only [Array.size_extract, capacity] at hi ⊢; omega),
      Array.getElem?_extract, Nat.zero_add, if_pos (by simp only [capacity] at hi; omega)]
  | @list marks windows filled items =>
    rw [resize, raw?_list, raw?_list, Array.take_eq_extract,
      Array.getElem?_append_left (by simp only [Array.size_extract, capacity] at hi ⊢; omega),
      Array.getElem?_extract, Nat.zero_add, if_pos (by simp only [capacity] at hi; omega)]

/-- New slots are blank. -/
theorem raw?_resize_of_le (hi : v.capacity ≤ i) (hn : i < n) :
    (v.resize n).raw? i = some (Scalar.blank v.type) := by
  cases v with
  | flat t marks slots =>
    simp only [capacity] at hi
    rw [resize, raw?, Array.take_eq_extract,
      Array.getElem?_append_right (by simp only [Array.size_extract]; omega),
      Array.getElem?_replicate, if_pos (by simp only [Array.size_extract]; omega)]
    rfl
  | list marks windows filled items =>
    simp only [capacity] at hi
    rw [resize, raw?_list, Array.take_eq_extract,
      Array.getElem?_append_right (by simp only [Array.size_extract]; omega),
      Array.getElem?_replicate, if_pos (by simp only [Array.size_extract]; omega)]
    rfl

/-- **More slots or fewer:** new slots are live. -/
theorem Formed.resize (h : v.Formed live) (n : Nat) :
    (v.resize n).Formed fun i => live i ∨ v.capacity ≤ i := by
  cases h with
  | @flat t marks slots live sound => exact .flat (sound_resize sound n)
  | @list marks windows filled items live sound capacity_eq filled_le within placed items_formed =>
    have hold : ∀ (i : Nat) (w : Window),
        (windows.take n ++ Array.replicate (n - windows.size) ⟨0, 0⟩)[i]? = some w →
          (windows[i]? = some w ∧ i < n ∧ i < windows.size) ∨ w = ⟨0, 0⟩ := fun i w hw => by
      rw [Array.take_eq_extract, Array.getElem?_append] at hw
      split at hw
      · rename_i hi
        simp only [Array.size_extract] at hi
        rw [Array.getElem?_extract, Nat.zero_add, if_pos (by omega)] at hw
        exact .inl ⟨hw, by omega, by omega⟩
      · rw [Array.getElem?_replicate] at hw
        split at hw
        · exact .inr (Option.some.inj hw).symm
        · cases hw
    refine .list (Validity.sound_resize marks n) ?_ filled_le (fun i w hw => ?_)
      (fun i w hw hlive hvalid => ?_) items_formed
    · exact (capacity_resize (.list marks windows filled items) n).symm
    · obtain ⟨hw, -, -⟩ | rfl := hold i w hw
      · exact within i w hw
      · exact Nat.zero_le _
    · obtain ⟨hw, hn, hi⟩ | rfl := hold i w hw
      · rw [Validity.get?_resize sound (capacity_eq ▸ hi) hn] at hvalid
        exact placed i w hw (hlive.resolve_right (Nat.not_le_of_lt hi)) hvalid
      · exact Nat.zero_le _

theorem Formed.get?_resize (h : v.Formed live) (hi : i < v.capacity) (hn : i < n) :
    (v.resize n).get? i = v.get? i := by
  obtain ⟨hsound, hcapacity⟩ := h.marks
  have hmark : (v.resize n).validity.get? i = v.validity.get? i := by
    rw [validity_resize, Validity.get?_resize hsound (hcapacity ▸ hi) hn]
  rw [get?, get?, hmark, raw?_resize h hi hn]

/-- **A new slot is blank,** or `NULL` where there was a mark past the capacity. -/
theorem get?_resize_of_le (hi : v.capacity ≤ i) (hn : i < n) :
    (v.resize n).get? i =
      some (if v.validity.get? i = some false then .null else Scalar.blank v.type) := by
  have hmark : (v.resize n).validity.get? i = some ((v.validity.get? i).getD true) := by
    rw [validity_resize,
      Validity.get?_resize_of_lt_markCount _ (Nat.lt_of_lt_of_le hn (Validity.le_markCount n))]
  by_cases hnull : v.validity.get? i = some false
  · rw [if_pos hnull]
    exact get?_of_null (by rw [hmark, hnull]; rfl)
  · rw [if_neg hnull, ← raw?_resize_of_le hi hn]
    refine get?_of_valid (hmark.trans ?_)
    cases hb : v.validity.get? i with
    | none => rfl
    | some b => exact congrArg some (Bool.of_not_eq_false fun hb' => hnull (hb.trans (hb' ▸ rfl)))

/-- **Room is made** for some slots, and those that were there stay. -/
theorem Formed.grow (h : v.Formed live) (needed : Nat) :
    (v.grow needed).Formed live ∧ (v.grow needed).type = v.type ∧
      v.capacity ≤ (v.grow needed).capacity ∧ needed ≤ (v.grow needed).capacity ∧
      ∀ j < v.capacity, (v.grow needed).get? j = v.get? j := by
  unfold ValueVector.grow
  split
  · rename_i hlt
    have hle : needed ≤ v.grown needed ∧ v.capacity ≤ v.grown needed := by
      rw [grown, if_pos hlt]
      omega
    rw [type_resize, capacity_resize]
    exact ⟨(h.resize _).mono fun _ => .inl, rfl, hle.2, hle.1,
      fun j hj => h.get?_resize hj (Nat.lt_of_lt_of_le hj hle.2)⟩
  · rename_i hge
    exact ⟨h, rfl, Nat.le_refl _, Nat.le_of_not_lt hge, fun _ _ => rfl⟩

/-! ## Marks -/

@[simp] theorem raw?_withValidity (v : ValueVector) (marks : Validity) (i : Nat) :
    (v.withValidity marks).raw? i = v.raw? i := by
  cases v <;> rw [withValidity, raw?, raw?]

/-- **A slot is marked `NULL`,** also one past the capacity, and the others stay. -/
theorem Formed.setNull? (h : v.Formed live) (hok : v.setNull? i = some v') :
    v'.Formed (fun j => live j ∨ j = i) ∧ v.Keeps v' (· ≠ i) ∧
      v'.validity.get? i = some false := by
  obtain ⟨marks, hmarks, rfl⟩ := Option.map_eq_some_iff.mp hok
  obtain ⟨hsound, hcapacity⟩ := h.marks
  obtain ⟨hsound', hcapacity', hnull⟩ := Validity.setNull?_eq_some hsound hmarks
  have hsame : ∀ j ≠ i, (marks.get? j = some false ↔ v.validity.get? j = some false) :=
    fun j hj => by rw [hnull, or_iff_right hj]
  have hmark : ∀ j < v.capacity, j ≠ i → marks.get? j = v.validity.get? j := fun j hlt hj =>
    Validity.get?_congr hsound hsound' hcapacity' (hcapacity.symm ▸ hlt) (hsame j hj)
  refine ⟨?_, ⟨by simp, by simp, fun j hj => by simpa using hsame j hj, fun j hlt hj => ?_⟩, ?_⟩
  · cases h with
    | flat sound =>
      obtain ⟨hflat, -, hsize, hslots⟩ := sound
      exact .flat ⟨hflat, hsound', hcapacity'.trans hsize, hslots⟩
    | list sound capacity_eq filled_le within placed items_formed =>
      refine .list hsound' (hcapacity'.trans capacity_eq) filled_le within
        (fun j w hw hlive hvalid => ?_) items_formed
      have hj : j ≠ i := by
        rintro rfl
        rw [(hnull j).mpr (.inl rfl)] at hvalid
        cases hvalid
      rw [hmark j (Array.getElem?_eq_some_iff.mp hw).1 hj] at hvalid
      exact placed j w hw (hlive.resolve_right hj) hvalid
  · simp only [get?, validity_withValidity, raw?_withValidity, hmark j hlt hj]
  · rw [validity_withValidity]
    exact (hnull i).mpr (.inl rfl)

/-! ## Writing -/

/-- What writing a value to a slot comes to.  The value is written if the slot is there and the value
fits, and all other live slots stay; otherwise all live slots do. -/
def Writes (v : ValueVector) (live : Nat → Prop) (i : Nat) (x : Scalar) : Prop :=
  ((i < v.capacity ∧ x.fits v.type = true) ∧ ∃ v', v.set i x = (.ok (), v') ∧
    v'.Formed (fun j => live j ∨ j = i) ∧ v.Keeps v' (fun j => live j ∧ j ≠ i) ∧
    v'.get? i = some x) ∨
  (¬(i < v.capacity ∧ x.fits v.type = true) ∧ ∃ e v', v.set i x = (.error e, v') ∧
    v'.Formed live ∧ v.Keeps v' live)

theorem writes_of_le (h : v.Formed live) (hi : v.capacity ≤ i) (x : Scalar) :
    v.Writes live i x :=
  .inr ⟨fun hlt => Nat.not_lt_of_le hi hlt.1, _, v, set_of_le hi x, h, .refl v live⟩

theorem writes_null (h : v.Formed live) (hi : i < v.capacity) : v.Writes live i .null := by
  obtain ⟨hsound, hcapacity⟩ := h.marks
  obtain ⟨v', hv'⟩ := Option.isSome_iff_exists.mp ((Validity.isSome_setNull? hsound i).mpr
    (Nat.lt_of_lt_of_le (hcapacity.symm ▸ hi) (Validity.le_markCount _)))
  have hok : v.setNull? i = some (v.withValidity v') := by rw [ValueVector.setNull?, hv']; rfl
  obtain ⟨hformed, hkeeps, hnull⟩ := h.setNull? hok
  refine .inl ⟨⟨hi, by cases v.type <;> rfl⟩, _, ?_, hformed, hkeeps.mono fun _ => And.right,
    get?_of_null hnull⟩
  rw [set, if_neg (Nat.not_le_of_lt hi), hok]

/-- Values that are no lists are written one for the other. -/
theorem writes_flat (h : v.Sound) (live : Nat → Prop) (hx : x ≠ .null) : v.Writes live i x := by
  rcases Nat.lt_or_ge i v.capacity with hi | hi
  · cases hfit : x.fits v.type with
    | false =>
      obtain ⟨e, he⟩ := set_refused (i := i) h hfit
      exact .inr ⟨fun hand => Bool.false_ne_true (hfit.symm.trans hand.2), e, v, he, h.formed live,
        .refl v live⟩
    | true =>
      obtain ⟨v', hok, hsound, htype, hcapacity, hself, hother⟩ := set_ok h hi hfit
      refine .inl ⟨⟨hi, hfit⟩, v', hok, hsound.formed _, ⟨htype, hcapacity, fun j hj => ?_,
        fun j hlt hj => hother j hj.2 hlt⟩, hself⟩
      cases v with
      | list => exact absurd h not_false
      | flat t marks slots =>
        have hlist : ∀ items, x ≠ .list items := by
          rintro items rfl
          obtain ⟨hnested, -⟩ := h
          cases t <;> first | cases hfit | cases hnested
        rw [set_flat hi hx hlist, if_pos (show x.fits t = true from hfit)] at hok
        split at hok
        · rename_i marks' hmarks
          obtain rfl := (Prod.mk.inj hok).2
          exact ((Validity.setValid?_eq_some h.2.1 hmarks).2.2 j).trans (and_iff_right hj.2)
        · cases hok
  · exact writes_of_le (h.formed live) hi x

/-- **Values are written one behind the other,** up to the first that does not fit; what lies in
front of them stays. -/
theorem setAll_of_writes {start : Nat} {xs : List Scalar}
    (hwrites : ∀ (v : ValueVector) (live : Nat → Prop), v.type = t → v.Formed live →
      ∀ i x, v.Writes live i x)
    (htype : v.type = t) (h : v.Formed (· < start)) (hroom : start + xs.length ≤ v.capacity) :
    ((∀ x ∈ xs, x.fits t = true) ∧ ∃ v', setAll v start xs = (.ok (), v') ∧
      v'.Formed (· < start + xs.length) ∧ v.Keeps v' (· < start) ∧
      ∀ k x, xs[k]? = some x → v'.get? (start + k) = some x) ∨
    ((¬∀ x ∈ xs, x.fits t = true) ∧ ∃ e v', setAll v start xs = (.error e, v') ∧
      v'.Formed (· < start) ∧ v.Keeps v' (· < start)) := by
  induction xs generalizing v start with
  | nil =>
    exact .inl ⟨by simp, v, by rw [setAll], h, .refl _ _, fun k x hx => absurd hx (by simp)⟩
  | cons x rest ih =>
    rw [List.length_cons] at hroom
    have hfront : ∀ j, j < start → j < start ∧ j ≠ start := fun j hj => ⟨hj, Nat.ne_of_lt hj⟩
    have hback : ∀ j, j < start → j < start + 1 := fun j hj => Nat.lt_succ_of_lt hj
    obtain ⟨⟨hi, hfit⟩, v₁, hone, hformed, hkeeps, hget⟩ | ⟨hnot, e, v₁, hone, hformed, hkeeps⟩ :=
      hwrites v _ htype h start x
    · rw [htype] at hfit
      have hformed : v₁.Formed (· < start + 1) := hformed.mono fun j hj => by omega
      obtain ⟨hfits, v₂, hrest, hformed', hkeeps', hread⟩ |
          ⟨hnot, e, v₂, hrest, hformed', hkeeps'⟩ :=
        ih (hkeeps.type_eq.trans htype) hformed (by rw [hkeeps.capacity_eq]; omega)
      · refine .inl ⟨List.forall_mem_cons.mpr ⟨hfit, hfits⟩, v₂, ?_, hformed'.mono fun j hj => ?_,
          (hkeeps.mono hfront).trans (hkeeps'.mono hback), fun k y hy => ?_⟩
        · rw [setAll, hone]
          exact hrest
        · rw [List.length_cons] at hj
          omega
        · cases k with
          | zero =>
            obtain rfl := Option.some.inj hy
            rw [Nat.add_zero, hkeeps'.get?_eq start (hkeeps.capacity_eq ▸ hi) (Nat.lt_succ_self _)]
            exact hget
          | succ k =>
            rw [← Nat.add_assoc, Nat.add_right_comm]
            exact hread k y hy
      · refine .inr ⟨fun hall => hnot fun y hy => hall y (List.mem_cons_of_mem _ hy), e, v₂, ?_,
          hformed'.mono hback, (hkeeps.mono hfront).trans (hkeeps'.mono hback)⟩
        rw [setAll, hone]
        exact hrest
    · refine .inr ⟨fun hall => hnot ⟨by omega, ?_⟩, e, v₁, ?_, hformed, hkeeps⟩
      · rw [htype]
        exact hall x List.mem_cons_self
      · rw [setAll, hone]

section Lists

variable {marks marks' : Validity} {windows windows' : Array Window} {filled filled' : Nat}
  {items items' : ValueVector} {xs : List Scalar}

/-- **A list stays** when its items do. -/
theorem get?_list_congr (hmark : marks'.get? i = marks.get? i) (hwindow : windows'[i]? = windows[i]?)
    (hitems : ∀ w, windows[i]? = some w → marks.get? i = some true →
      ∀ k < w.length, items'.get? (w.start + k) = items.get? (w.start + k)) :
    (list marks' windows' filled' items').get? i = (list marks windows filled items).get? i := by
  cases hm : marks.get? i with
  | none => simp only [get?, validity, hmark, hm]
  | some b =>
    cases b with
    | false => simp only [get?, validity, hmark, hm]
    | true =>
      rw [get?_of_valid (v := .list marks' windows' filled' items') (hmark.trans hm),
        get?_of_valid (v := .list marks windows filled items) hm, raw?_list, raw?_list, hwindow]
      cases hw : windows[i]? with
      | none => rfl
      | some w =>
        rw [Option.bind_some, Option.bind_some,
          mapM_congr fun k hk => hitems w hw hm k (List.mem_range.mp hk)]

theorem set_list_ok (hi : i < windows.size)
    (hall : setAll (items.grow (filled + xs.length)) filled xs = (.ok (), items'))
    (hvalid : marks.setValid? i = some marks') :
    (list marks windows filled items).set i (.list xs) =
      (.ok (), .list marks' (windows.setIfInBounds i ⟨filled, xs.length⟩) (filled + xs.length)
        items') := by
  rw [set, if_neg (Nat.not_le_of_lt (show i < (list marks windows filled items).capacity from hi))]
  simp only [hall, hvalid]

theorem set_list_error {e : VectorError} (hi : i < windows.size)
    (hall : setAll (items.grow (filled + xs.length)) filled xs = (.error e, items')) :
    (list marks windows filled items).set i (.list xs) =
      (.error e, .list marks windows filled items') := by
  rw [set, if_neg (Nat.not_le_of_lt (show i < (list marks windows filled items).capacity from hi))]
  simp only [hall]

/-- A list behind all others keeps these where they are. -/
theorem Formed.write (h : (ValueVector.list marks windows filled items).Formed live)
    (hi : i < windows.size)
    (hsound : marks'.Sound) (hcapacity : marks'.capacity = marks.capacity)
    (hmark : ∀ j < windows.size, j ≠ i → marks'.get? j = marks.get? j)
    (hroom : filled + xs.length ≤ items'.capacity) (hmore : items.capacity ≤ items'.capacity)
    (hitems : items'.Formed (· < filled + xs.length)) :
    (ValueVector.list marks' (windows.setIfInBounds i ⟨filled, xs.length⟩) (filled + xs.length)
      items').Formed fun j => live j ∨ j = i := by
  obtain - | ⟨sound, capacity_eq, filled_le, within, placed, -⟩ := h
  -- every window is the new one or one of those that were there
  have hwindow : ∀ (j : Nat) (w : Window),
      (windows.setIfInBounds i ⟨filled, xs.length⟩)[j]? = some w →
        (j = i ∧ w = ⟨filled, xs.length⟩) ∨ (j ≠ i ∧ windows[j]? = some w) := fun j w hw => by
    rw [Array.getElem?_setIfInBounds] at hw
    by_cases hj : i = j
    · rw [if_pos hj, if_pos hi] at hw
      exact .inl ⟨hj.symm, (Option.some.inj hw).symm⟩
    · rw [if_neg hj] at hw
      exact .inr ⟨Ne.symm hj, hw⟩
  refine .list hsound ?_ hroom (fun j w hw => ?_) (fun j w hw hlive hvalid => ?_) hitems
  · rw [hcapacity, capacity_eq, Array.size_setIfInBounds]
  · obtain ⟨-, rfl⟩ | ⟨-, hw⟩ := hwindow j w hw
    · exact hroom
    · exact Nat.le_trans (within j w hw) hmore
  · obtain ⟨-, rfl⟩ | ⟨hj, hw⟩ := hwindow j w hw
    · exact Nat.le_refl _
    · rw [hmark j (Array.getElem?_eq_some_iff.mp hw).1 hj] at hvalid
      exact Nat.le_trans (placed j w hw (hlive.resolve_right hj) hvalid) (Nat.le_add_right _ _)

/-- **A list is written** behind the lists that are there. -/
theorem writes_list (h : (list marks windows filled items).Formed live) (hi : i < windows.size)
    (hwrites : ∀ (v : ValueVector) (live : Nat → Prop), v.type = items.type → v.Formed live →
      ∀ i x, v.Writes live i x) :
    (list marks windows filled items).Writes live i (.list xs) := by
  obtain - | ⟨sound, capacity_eq, filled_le, within, placed, items_formed⟩ := id h
  obtain ⟨hroomy, htype, hmore, hroom, hstay⟩ := items_formed.grow (filled + xs.length)
  have hfits : (Scalar.list xs).fits (list marks windows filled items).type = true ↔
      ∀ x ∈ xs, x.fits items.type = true := by rw [type, Scalar.fits, Scalar.allFit_iff]
  -- the items of a list that is live lie in front of those that are written
  have hold : ∀ {items' : ValueVector},
      (items.grow (filled + xs.length)).Keeps items' (· < filled) →
      ∀ j w, live j → windows[j]? = some w → marks.get? j = some true →
        ∀ k < w.length, items'.get? (w.start + k) = items.get? (w.start + k) :=
    fun hkeeps j w hlive hw hvalid k hk => by
      have hlt := placed j w hw hlive hvalid
      rw [hkeeps.get?_eq _ (by omega) (by omega), hstay _ (by omega)]
  rcases setAll_of_writes hwrites htype hroomy hroom with
    ⟨hfit, items', hall, hitems, hkeeps, hread⟩ | ⟨hnot, e, items', hall, hitems, hkeeps⟩
  · obtain ⟨marks', hmarks', hsound, hcapacity, hvalid, hother⟩ :=
      Validity.setValid?_of_lt sound (capacity_eq.symm ▸ hi)
    have hnull := (Validity.setValid?_eq_some sound hmarks').2.2
    have hmark : ∀ j < windows.size, j ≠ i → marks'.get? j = marks.get? j := fun j hlt hj =>
      hother j hj (capacity_eq.symm ▸ hlt)
    have hwindow : ∀ j, j ≠ i →
        (windows.setIfInBounds i ⟨filled, xs.length⟩)[j]? = windows[j]? := fun j hj => by
      rw [Array.getElem?_setIfInBounds, if_neg (Ne.symm hj)]
    have hself : (windows.setIfInBounds i ⟨filled, xs.length⟩)[i]? = some ⟨filled, xs.length⟩ := by
      rw [Array.getElem?_setIfInBounds, if_pos rfl, if_pos hi]
    refine .inl ⟨⟨hi, hfits.mpr hfit⟩, _, set_list_ok hi hall hmarks',
      h.write hi hsound hcapacity hmark (hkeeps.capacity_eq ▸ hroom) (hkeeps.capacity_eq ▸ hmore)
        hitems, ⟨?_, ?_, fun j hj => (hnull j).trans (and_iff_right hj.2), fun j hlt hj => ?_⟩,
      get?_list hvalid hself hread⟩
    · rw [type, type, hkeeps.type_eq, htype]
    · rw [capacity, capacity, Array.size_setIfInBounds]
    · exact get?_list_congr (hmark j hlt hj.2) (hwindow j hj.2) fun w hw hvalid =>
        hold hkeeps j w hj.1 hw hvalid
  · refine .inr ⟨fun hand => hnot (hfits.mp hand.2), e, _, set_list_error hi hall, ?_,
      ⟨?_, rfl, fun _ _ => Iff.rfl, ?_⟩⟩
    · have hcap := hkeeps.capacity_eq
      exact .list sound capacity_eq (by omega)
        (fun j w hw => Nat.le_trans (within j w hw) (by omega)) placed hitems
    · rw [type, type, hkeeps.type_eq, htype]
    · exact fun j hlt hj => get?_list_congr rfl rfl fun w hw hvalid => hold hkeeps j w hj hw hvalid

/-- A value that is no list is refused. -/
theorem writes_mismatch (h : (list marks windows filled items).Formed live) (hi : i < windows.size)
    (hx : x ≠ .null) (hlist : ∀ xs, x ≠ .list xs) :
    (list marks windows filled items).Writes live i x := by
  have hset : (list marks windows filled items).set i x =
      (.error (.typeMismatch (.list items.type) x.render), list marks windows filled items) := by
    have hi : ¬(list marks windows filled items).capacity ≤ i := Nat.not_le_of_lt hi
    cases x with
    | null => exact absurd rfl hx
    | list xs => exact absurd rfl (hlist xs)
    | _ => unfold ValueVector.set; exact if_neg hi
  have hfit : x.fits (list marks windows filled items).type = false := by
    cases x with
    | null => exact absurd rfl hx
    | list xs => exact absurd rfl (hlist xs)
    | _ => rfl
  exact .inr ⟨fun hand => Bool.false_ne_true (hfit.symm.trans hand.2), _, _, hset, h, .refl _ live⟩

end Lists

/-- **One slot is written,** whatever the type: by induction on it, the items of a list being written
in turn. -/
theorem Formed.set (h : v.Formed live) (i : Nat) (x : Scalar) : v.Writes live i x := by
  suffices hall : ∀ (t : ColumnType) (v : ValueVector) (live : Nat → Prop), v.type = t →
      v.Formed live → ∀ i x, v.Writes live i x from hall v.type v live rfl h i x
  intro t
  induction t with
  | list item ih =>
    intro v live htype h i x
    rcases Nat.lt_or_ge i v.capacity with hi | hi
    · by_cases hx : x = .null
      · exact hx ▸ writes_null h hi
      · cases v with
        | flat _ marks slots =>
          obtain ⟨sound⟩ := h
          exact writes_flat sound live hx
        | list marks windows filled items =>
          cases x with
          | null => exact absurd rfl hx
          | list xs => exact writes_list h hi (ColumnType.list.inj htype ▸ ih)
          | _ =>
            exact writes_mismatch h hi hx fun xs hxs => by cases hxs
    · exact writes_of_le h hi x
  | _ =>
    intro v live htype h i x
    rcases Nat.lt_or_ge i v.capacity with hi | hi
    · by_cases hx : x = .null
      · exact hx ▸ writes_null h hi
      · cases h with
        | flat sound => exact writes_flat sound live hx
        | list => cases htype
    · exact writes_of_le h hi x

/-- **A vector of values holds them,** if all of them fit. -/
theorem ofValues_ok {values : List Scalar} (hfit : ∀ x ∈ values, x.fits t = true) :
    ∃ v, ofValues t values = .ok v ∧ v.type = t ∧ v.capacity = values.length ∧
      v.Formed (· < values.length) ∧ ∀ k x, values[k]? = some x → v.get? k = some x := by
  have hnew : (new t values.length).Formed (· < 0) := (formed_new t _).mono fun _ _ => trivial
  obtain ⟨-, v, hall, hformed, hkeeps, hread⟩ | ⟨hnot, -⟩ := setAll_of_writes
    (fun v live _ h i x => h.set i x) (type_new t values.length) hnew
    (show 0 + values.length ≤ _ by simp)
  · refine ⟨v, by rw [ofValues, hall], by rw [hkeeps.type_eq, type_new],
      by rw [hkeeps.capacity_eq, capacity_new], ?_, fun k x hx => ?_⟩
    · exact hformed.mono fun k hk => by rwa [Nat.zero_add]
    · have := hread k x hx
      rwa [Nat.zero_add] at this
  · exact absurd hfit hnot

/-! ## Copying -/

/-- A vector whose slots all have values of its type. -/
def Readable (v : ValueVector) : Prop := ∀ i < v.capacity, ∃ x, v.get? i = some x ∧ x.fits v.type = true

theorem Formed.readable (h : v.Formed live) : v.Readable := fun _ hi => h.get?_of_lt hi

/-- **Values of another vector are copied** into slots one behind the other. -/
theorem Formed.copyRows {source : ValueVector} {start : Nat} {rows : Selection} (h : v.Formed live)
    (hread : ∀ row ∈ rows, ∃ x, source.get? row = some x ∧ x.fits v.type = true)
    (hroom : start + rows.length ≤ v.capacity) :
    ∃ v', v.copyRows start source rows = (.ok (), v') ∧
      v'.Formed (fun j => live j ∨ (start ≤ j ∧ j < start + rows.length)) ∧
      v.Keeps v' (fun j => live j ∧ ¬(start ≤ j ∧ j < start + rows.length)) ∧
      ∀ k row, rows[k]? = some row → v'.get? (start + k) = source.get? row := by
  induction rows generalizing v live start with
  | nil =>
    exact ⟨v, by rw [ValueVector.copyRows], h.mono fun j hj => hj.resolve_right (by simp),
      .refl _ _, fun k row hrow => absurd hrow (by simp)⟩
  | cons row rest ih =>
    rw [List.length_cons] at hroom
    obtain ⟨x, hx, hfit⟩ := hread row List.mem_cons_self
    obtain ⟨-, v₁, hone, hformed, hkeeps, hget⟩ | ⟨hnot, -⟩ := h.set start x
    · obtain ⟨v₂, hrest, hformed', hkeeps', hread'⟩ := @ih v₁ _ (start + 1) hformed
        (fun r hr => by
          rw [hkeeps.type_eq]
          exact hread r (List.mem_cons_of_mem _ hr))
        (by rw [hkeeps.capacity_eq]; omega)
      refine ⟨v₂, ?_, hformed'.mono fun j hj => ?_,
        (hkeeps.mono fun j hj => ⟨hj.1, ?_⟩).trans (hkeeps'.mono fun j hj => ⟨.inl hj.1, ?_⟩),
        fun k r hr => ?_⟩
      · rw [ValueVector.copyRows, copySlot_eq hx, hone]
        exact hrest
      · rw [List.length_cons] at hj
        obtain hj | hj := hj
        · exact .inl (.inl hj)
        · by_cases hstart : j = start
          · exact .inl (.inr hstart)
          · exact .inr (by omega)
      · rw [List.length_cons] at hj
        omega
      · rw [List.length_cons] at hj
        omega
      · cases k with
        | zero =>
          obtain rfl := Option.some.inj hr
          rw [Nat.add_zero, hkeeps'.get?_eq start (by rw [hkeeps.capacity_eq]; omega)
            ⟨.inr rfl, by omega⟩, hget, hx]
        | succ k =>
          rw [← Nat.add_assoc, Nat.add_right_comm]
          exact hread' k r hr
    · exact absurd ⟨by omega, hfit⟩ hnot

end ValueVector
end ColumnStore
