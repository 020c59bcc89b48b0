/-
# A vector is an array of values

Next to a vector stands an array that says of each slot what was written to it last (`Cells`).  Every
operation on the vector is accepted where the array accepts it, and leaves in each slot the value that
the array has there; an operation that is refused changes no slot (`Shows.follows`).  So a vector shows
its array after any operations (`Shows.run`).

Slots past the capacity have a value too: a mark can be made there, and is read when the vector grows.
-/

import ColumnStore.Proofs.Vector.Nested

namespace ColumnStore

/-- An array of values. -/
structure Cells where
  capacity : Nat
  value : Nat → Scalar

namespace Cells

/-- Slots that were not written yet. -/
def blank (t : ColumnType) (n : Nat) : Cells := ⟨n, fun _ => Scalar.blank t⟩

/-- Writes one slot. -/
def write (c : Cells) (i : Nat) (x : Scalar) : Cells :=
  { c with value := fun j => if j = i then x else c.value j }

/-- Writes slots one behind the other. -/
def fill (c : Cells) (start : Nat) : List Scalar → Cells
  | [] => c
  | x :: rest => (c.write start x).fill (start + 1) rest

/-- Makes room for `needed` slots, for at least twice as many as there are. -/
def grow (c : Cells) (needed : Nat) : Cells :=
  if c.capacity < needed then { c with capacity := max needed (c.capacity * 2) } else c

@[simp] theorem capacity_write (c : Cells) (i : Nat) (x : Scalar) :
    (c.write i x).capacity = c.capacity := rfl

@[simp] theorem capacity_fill (c : Cells) (start : Nat) (xs : List Scalar) :
    (c.fill start xs).capacity = c.capacity := by
  induction xs generalizing c start with
  | nil => rfl
  | cons x rest ih => rw [fill, ih, capacity_write]

@[simp] theorem value_grow (c : Cells) (needed : Nat) : (c.grow needed).value = c.value := by
  unfold grow
  split <;> rfl

theorem capacity_grow (c : Cells) (needed : Nat) :
    (c.grow needed).capacity =
      if c.capacity < needed then max needed (c.capacity * 2) else c.capacity := by
  unfold grow
  split <;> rfl

theorem le_capacity_grow (c : Cells) (needed : Nat) :
    c.capacity ≤ (c.grow needed).capacity ∧ needed ≤ (c.grow needed).capacity := by
  rw [capacity_grow]
  split <;> omega

/-- What is in the other slots. -/
theorem value_fill_of_not (c : Cells) {start : Nat} {xs : List Scalar} {j : Nat}
    (hj : ¬(start ≤ j ∧ j < start + xs.length)) : (c.fill start xs).value j = c.value j := by
  induction xs generalizing c start with
  | nil => rfl
  | cons x rest ih =>
    rw [List.length_cons] at hj
    rw [fill, ih _ (by omega)]
    exact if_neg (by omega)

/-- What is in the slots that are written. -/
theorem value_fill_add (c : Cells) (start : Nat) {xs : List Scalar} {k : Nat} {x : Scalar}
    (hx : xs[k]? = some x) : (c.fill start xs).value (start + k) = x := by
  induction xs generalizing c start k with
  | nil => cases hx
  | cons y rest ih =>
    cases k with
    | zero =>
      obtain rfl := Option.some.inj hx
      rw [fill, Nat.add_zero, value_fill_of_not _ (by omega)]
      exact if_pos rfl
    | succ k =>
      rw [fill, ← Nat.add_assoc, Nat.add_right_comm]
      exact ih _ _ hx

end Cells

namespace ValueVector

/-! ## Operations -/

/-- An operation on a vector. -/
inductive Edit where
  | set (i : Nat) (x : Scalar)
  | setNull (i : Nat)
  | copy (i : Nat) (source : ValueVector) (j : Nat)
  | append (length : Nat) (source : ValueVector) (rows : Selection)
  | grow (more : Nat)

namespace Edit

/-- Does an operation. -/
def apply (v : ValueVector) : Edit → Attempt VectorError ValueVector Unit
  | .set i x => v.set i x
  | .setNull i =>
    match v.setNull? i with
    | some v' => (.ok (), v')
    | none => (.error .outOfRange, v)
  | .copy i source j => v.copySlot i source j
  | .append length source rows => (v.append length source rows).andThen fun _ v' => (.ok (), v')
  | .grow more =>
    match v.resize? (v.capacity + more) with
    | some v' => (.ok (), v')
    | none => (.error .outOfRange, v)

/-- The slots that an operation writes. -/
def Touches : Edit → Nat → Prop
  | .set i _, j | .setNull i, j | .copy i _ _, j => j = i
  | .append length _ rows, j => length ≤ j ∧ j < length + rows.length
  | .grow _, _ => False

/-- Whether rows are only added from a vector that can be read. -/
def Reads : Edit → Prop
  | .append _ source _ => source.Readable
  | _ => True

/-- What an operation makes of an array of values of a type, none when it is refused. -/
def onCells? (t : ColumnType) (c : Cells) : Edit → Option Cells
  | .set i x => if i < c.capacity ∧ x.fits t then some (c.write i x) else none
  | .setNull i => if i < Validity.markCount c.capacity then some (c.write i .null) else none
  | .copy i source j =>
    (source.get? j).bind fun x =>
      if i < c.capacity ∧ x.fits t then some (c.write i x) else none
  | .append length source rows =>
    if source.type = t ∧ (∀ row ∈ rows, row < source.capacity) ∧
        length + rows.length < UInt64.size ∧ hasRoom t (c.grow (length + rows.length)).capacity then
      (rows.mapM source.get?).map ((c.grow (length + rows.length)).fill length)
    else none
  | .grow more =>
    if hasRoom t (c.capacity + more) then some { c with capacity := c.capacity + more } else none

/-- Does operations one after the other, also after one that is refused. -/
def run (v : ValueVector) (edits : List Edit) : ValueVector :=
  edits.foldl (fun v e => (e.apply v).2) v

/-- What operations make of an array of values, where those that are refused do nothing. -/
def runOnCells (t : ColumnType) (c : Cells) (edits : List Edit) : Cells :=
  edits.foldl (fun c e => (e.onCells? t c).getD c) c

/-- A slot that is written if a condition holds. -/
theorem value_of_write {c c' : Cells} {i : Nat} {x : Scalar} {accepted : Prop} [Decidable accepted]
    (h : (if accepted then some (c.write i x) else none) = some c') :
    c.capacity ≤ c'.capacity ∧ ∀ j, j ≠ i → c'.value j = c.value j := by
  split at h
  · obtain rfl := Option.some.inj h
    exact ⟨Nat.le_refl _, fun j hj => if_neg hj⟩
  · cases h

/-- **An operation writes the slots that it touches** and no others. -/
theorem value_of_onCells? {t : ColumnType} {c c' : Cells} {e : Edit} (h : e.onCells? t c = some c') :
    c.capacity ≤ c'.capacity ∧ ∀ j, ¬e.Touches j → c'.value j = c.value j := by
  cases e with
  | set i x => exact value_of_write h
  | setNull i => exact value_of_write h
  | copy i source j =>
    obtain ⟨x, -, h⟩ := Option.bind_eq_some_iff.mp h
    exact value_of_write h
  | append length source rows =>
    rw [onCells?] at h
    split at h
    · obtain ⟨xs, hxs, rfl⟩ := Option.map_eq_some_iff.mp h
      have hlen := (forall₂_of_mapM hxs).length_eq
      refine ⟨?_, fun j hj => ?_⟩
      · rw [Cells.capacity_fill]
        exact (c.le_capacity_grow _).1
      · rw [Cells.value_fill_of_not _ (hlen ▸ hj), Cells.value_grow]
    · cases h
  | grow more =>
    rw [onCells?] at h
    split at h
    · obtain rfl := Option.some.inj h
      exact ⟨Nat.le_add_right _ _, fun _ _ => rfl⟩
    · cases h

end Edit

/-! ## A vector and its array -/

variable {v v' : ValueVector} {t : ColumnType} {c : Cells} {i : Nat} {x : Scalar}

/-- A vector with the values of an array in its slots, all of them live. -/
structure Shows (v : ValueVector) (t : ColumnType) (c : Cells) : Prop where
  formed : v.Formed fun _ => True
  type_eq : v.type = t
  capacity_eq : v.capacity = c.capacity
  value_eq : ∀ i < c.capacity, v.get? i = some (c.value i)
  later_eq : ∀ i, c.capacity ≤ i →
    c.value i = if v.validity.get? i = some false then .null else Scalar.blank t

theorem raw?_new {n : Nat} (hi : i < n) : (new t n).raw? i = some (Scalar.blank t) := by
  cases t with
  | list item =>
    rw [new, raw?_list, Array.getElem?_replicate, if_pos hi]
    rfl
  | _ => exact Array.getElem?_replicate.trans (if_pos hi)

/-- A new vector is blank. -/
theorem shows_new (t : ColumnType) (n : Nat) : (new t n).Shows t (.blank t n) where
  formed := formed_new t n
  type_eq := type_new t n
  capacity_eq := capacity_new t n
  value_eq i hi := by
    have hmark : (new t n).validity.get? i = some true := by cases t <;> rfl
    rw [get?_of_valid hmark]
    exact raw?_new hi
  later_eq i _ := by
    have hmark : (new t n).validity.get? i = some true := by cases t <;> rfl
    rw [hmark, if_neg (by simp)]
    rfl

/-- **Slots that are kept** show the same values; the others are to show what they have become. -/
theorem Shows.of_keeps {kept : Nat → Prop} {c' : Cells} (h : v.Shows t c)
    (hformed : v'.Formed fun _ => True) (hkeeps : v.Keeps v' kept)
    (hcapacity : c'.capacity = c.capacity) (hsame : ∀ j, kept j → c'.value j = c.value j)
    (hnew : ∀ j < c.capacity, ¬kept j → v'.get? j = some (c'.value j))
    (hlater : ∀ j, c.capacity ≤ j → ¬kept j →
      c'.value j = if v'.validity.get? j = some false then .null else Scalar.blank t) :
    v'.Shows t c' where
  formed := hformed
  type_eq := hkeeps.type_eq.trans h.type_eq
  capacity_eq := (hkeeps.capacity_eq.trans h.capacity_eq).trans hcapacity.symm
  value_eq j hj := by
    rw [hcapacity] at hj
    by_cases hk : kept j
    · rw [hkeeps.get?_eq j (h.capacity_eq ▸ hj) hk, hsame j hk, h.value_eq j hj]
    · exact hnew j hj hk
  later_eq j hj := by
    rw [hcapacity] at hj
    by_cases hk : kept j
    · rw [hsame j hk, h.later_eq j hj]
      exact if_congr (hkeeps.null_iff j hk).symm rfl rfl
    · exact hlater j hj hk

/-- **A slot that is written** shows what was written. -/
theorem Shows.write (h : v.Shows t c) (hformed : v'.Formed fun _ => True)
    (hkeeps : v.Keeps v' (· ≠ i)) (hi : i < c.capacity) (hget : v'.get? i = some x) :
    v'.Shows t (c.write i x) := by
  refine h.of_keeps hformed hkeeps rfl (fun j hj => if_neg hj) (fun j _ hj => ?_)
    fun j hlater hj => ?_
  · obtain rfl := not_not.mp hj
    rw [hget, Cells.write]
    exact congrArg some (if_pos rfl).symm
  · obtain rfl := not_not.mp hj
    exact absurd hi (Nat.not_lt_of_le hlater)

/-- **A slot that is marked `NULL`** shows it, also one that is there only later. -/
theorem Shows.setNull? (h : v.Shows t c) (hok : v.setNull? i = some v') :
    v'.Shows t (c.write i .null) := by
  obtain ⟨hformed, hkeeps, hnull⟩ := h.formed.setNull? hok
  refine h.of_keeps (hformed.mono fun _ => .inl) hkeeps rfl (fun j hj => if_neg hj)
    (fun j _ hj => ?_) fun j _ hj => ?_
  · obtain rfl := not_not.mp hj
    rw [get?_of_null hnull, Cells.write]
    exact congrArg some (if_pos rfl).symm
  · obtain rfl := not_not.mp hj
    rw [if_pos hnull]
    exact if_pos rfl

/-- **A vector that grows** shows what was given to its new slots before. -/
theorem Shows.resize (h : v.Shows t c) {n : Nat} (hn : c.capacity ≤ n) :
    (v.resize n).Shows t { c with capacity := n } := by
  obtain ⟨hsound, hcapacity⟩ := h.formed.marks
  have hformed : (v.resize n).Formed fun _ => True := (h.formed.resize n).mono fun _ => .inl
  have hcap : v.validity.capacity ≤ n := by rw [hcapacity, h.capacity_eq]; exact hn
  have hmark : ∀ j, (v.resize n).validity.get? j = some false ↔ v.validity.get? j = some false :=
    fun j => by rw [validity_resize, Validity.get?_resize_of_le hsound hcap j]
  refine ⟨hformed, (type_resize v n).trans h.type_eq, capacity_resize v n, fun j hj => ?_,
    fun j hj => ?_⟩
  · rcases Nat.lt_or_ge j c.capacity with hold | hnew
    · rw [h.formed.get?_resize (h.capacity_eq ▸ hold) hj]
      exact h.value_eq j hold
    · rw [get?_resize_of_le (h.capacity_eq ▸ hnew) hj, h.later_eq j hnew, h.type_eq]
  · rw [h.later_eq j (Nat.le_trans hn hj)]
    exact if_congr (hmark j).symm rfl rfl

/-- **A vector that makes room** shows the same values. -/
theorem Shows.grow (h : v.Shows t c) (needed : Nat) : (v.grow needed).Shows t (c.grow needed) := by
  rw [ValueVector.grow, Cells.grow, grown, h.capacity_eq]
  split
  · exact h.resize (by omega)
  · exact h

/-- **Rows that are copied** are shown one behind the other. -/
theorem Shows.copyRows (h : v.Shows t c) {source : ValueVector} {start : Nat} {rows : Selection}
    {xs : List Scalar} (hxs : rows.mapM source.get? = some xs) (hfit : ∀ x ∈ xs, x.fits t = true)
    (hroom : start + rows.length ≤ c.capacity) :
    ∃ v', v.copyRows start source rows = (.ok (), v') ∧ v'.Shows t (c.fill start xs) := by
  have hread := forall₂_of_mapM hxs
  have hlen := hread.length_eq
  obtain ⟨v', hcopy, hformed, hkeeps, hvalues⟩ := h.formed.copyRows
    (fun row (hrow : row ∈ rows) => by
      obtain ⟨x, hx, hget⟩ := exists_mem_right_of_forall₂ hread hrow
      exact ⟨x, hget, h.type_eq ▸ hfit x hx⟩)
    (h.capacity_eq ▸ hroom)
  refine ⟨v', hcopy, h.of_keeps (hformed.mono fun _ => .inl) hkeeps (Cells.capacity_fill ..)
    (fun j hj => Cells.value_fill_of_not _ (hlen ▸ hj.2)) (fun j _ hj => ?_) fun j hj hin => ?_⟩
  · obtain ⟨hle, hlt⟩ := not_not.mp fun hnot => hj ⟨trivial, hnot⟩
    obtain ⟨k, rfl⟩ := Nat.exists_eq_add_of_le hle
    have hk : k < rows.length := Nat.lt_of_add_lt_add_left hlt
    have hrow : rows[k]? = some rows[k] := List.getElem?_eq_getElem hk
    obtain ⟨x, hx, hget⟩ := exists_right_of_forall₂ hread hrow
    rw [Cells.value_fill_add _ _ hx, hvalues k _ hrow, hget]
  · exact absurd ⟨trivial, fun hand => by omega⟩ hin

/-! ## Steps -/

/-- What an operation on a vector that shows an array comes to: it is done on both, or it is refused
and the vector shows the array still. -/
def Follows (v : ValueVector) (t : ColumnType) (c : Cells) (e : Edit) : Prop :=
  (∃ v' c', e.apply v = (.ok (), v') ∧ e.onCells? t c = some c' ∧ v'.Shows t c') ∨
  (∃ error v', e.apply v = (.error error, v') ∧ e.onCells? t c = none ∧ v'.Shows t c)

theorem Shows.follows_set (h : v.Shows t c) (i : Nat) (x : Scalar) : v.Follows t c (.set i x) := by
  have hif : (i < v.capacity ∧ x.fits v.type = true) ↔ i < c.capacity ∧ x.fits t = true := by
    rw [h.capacity_eq, h.type_eq]
  obtain ⟨hin, v', hset, hformed, hkeeps, hget⟩ | ⟨hnot, error, v', hset, hformed, hkeeps⟩ :=
    h.formed.set i x
  · exact .inl ⟨v', _, hset, if_pos (hif.mp hin), h.write (hformed.mono fun _ => .inl)
      (hkeeps.mono fun _ hj => ⟨trivial, hj⟩) (hif.mp hin).1 hget⟩
  · exact .inr ⟨error, v', hset, if_neg fun hand => hnot (hif.mpr hand),
      h.of_keeps hformed hkeeps rfl (fun _ _ => rfl) (fun _ _ hj => absurd trivial hj)
        fun _ _ hj => absurd trivial hj⟩

theorem Shows.follows_setNull (h : v.Shows t c) (i : Nat) : v.Follows t c (.setNull i) := by
  obtain ⟨hsound, hcapacity⟩ := h.formed.marks
  have hmark := Validity.isSome_setNull? hsound i
  rw [hcapacity, h.capacity_eq] at hmark
  cases hv : v.setNull? i with
  | some v' =>
    have hlt : i < Validity.markCount c.capacity := by
      obtain ⟨marks, hmarks, -⟩ := Option.map_eq_some_iff.mp hv
      exact hmark.mp (hmarks ▸ rfl)
    exact .inl ⟨v', _, by rw [Edit.apply, hv], if_pos hlt, h.setNull? hv⟩
  | none =>
    have hge : ¬i < Validity.markCount c.capacity := fun hlt => by
      obtain ⟨marks, hmarks⟩ := Option.isSome_iff_exists.mp (hmark.mpr hlt)
      rw [ValueVector.setNull?, hmarks] at hv
      cases hv
    exact .inr ⟨_, v, by rw [Edit.apply, hv], if_neg hge, h⟩

/-- A slot that is copied is written. -/
theorem Shows.follows_copy (h : v.Shows t c) (i : Nat) (source : ValueVector) (j : Nat) :
    v.Follows t c (.copy i source j) := by
  cases hx : source.get? j with
  | some x =>
    obtain ⟨v', c', hset, hcells, hshows⟩ | ⟨error, v', hset, hcells, hshows⟩ := h.follows_set i x
    · exact .inl ⟨v', c', (copySlot_eq hx).trans hset, by rw [Edit.onCells?, hx]; exact hcells, hshows⟩
    · exact .inr ⟨error, v', (copySlot_eq hx).trans hset, by rw [Edit.onCells?, hx]; exact hcells,
        hshows⟩
  | none =>
    obtain ⟨error, herror⟩ : ∃ error, v.copySlot i source j = (.error error, v) := by
      rw [copySlot, hx]
      split <;> exact ⟨_, rfl⟩
    exact .inr ⟨error, v, herror, by rw [Edit.onCells?, hx]; rfl, h⟩

theorem Shows.follows_grow (h : v.Shows t c) (more : Nat) : v.Follows t c (.grow more) := by
  have hresize : v.resize? (v.capacity + more) =
      if hasRoom t (c.capacity + more) then some (v.resize (c.capacity + more)) else none := by
    rw [resize?, h.type_eq, h.capacity_eq]
  cases hroom : hasRoom t (c.capacity + more) with
  | true =>
    rw [hroom, if_pos rfl] at hresize
    exact .inl ⟨_, _, by rw [Edit.apply, hresize], if_pos hroom, h.resize (Nat.le_add_right _ _)⟩
  | false =>
    rw [hroom, if_neg Bool.false_ne_true] at hresize
    exact .inr ⟨_, v, by rw [Edit.apply, hresize],
      if_neg (by rw [hroom]; exact Bool.false_ne_true), h⟩

/-- Rows can be added to a vector: they are there, of its type, and there is room for them. -/
def Accepts (v : ValueVector) (length : Nat) (source : ValueVector) (rows : Selection) : Prop :=
  source.type = v.type ∧ (∀ row ∈ rows, row < source.capacity) ∧
    length + rows.length < UInt64.size ∧ hasRoom v.type (v.grown (length + rows.length)) = true

theorem append_ok {length : Nat} {source : ValueVector} {rows : Selection}
    (h : v.Accepts length source rows)
    (hcopy : (v.grow (length + rows.length)).copyRows length source rows = (.ok (), v')) :
    v.append length source rows = (.ok (length + rows.length), v') := by
  obtain ⟨htype, hverify, hlt, hroom⟩ := h
  rw [append, if_neg (by simpa using htype), verify_eq_ok.mpr hverify]
  dsimp only
  rw [hroom, if_neg (by simpa using hlt), hcopy]

theorem append_refused {length : Nat} {source : ValueVector} {rows : Selection}
    (h : ¬v.Accepts length source rows) :
    ∃ error, v.append length source rows = (.error error, v) := by
  unfold append
  split
  · exact ⟨_, rfl⟩
  · rename_i htype
    split
    · exact ⟨_, rfl⟩
    · rename_i hverify
      dsimp only
      split
      · exact ⟨_, rfl⟩
      · rename_i hroom
        simp only [Bool.or_eq_true, decide_eq_true_eq, Bool.not_eq_true', not_or, Nat.not_le,
          Bool.not_eq_false] at hroom
        exact absurd ⟨not_not.mp htype, verify_eq_ok.mp hverify, hroom.1, hroom.2⟩ h

/-- **Rows that are added** are written one behind the other, after room was made for them. -/
theorem Shows.follows_append (h : v.Shows t c) (length : Nat) {source : ValueVector}
    (hsource : source.Readable) (rows : Selection) : v.Follows t c (.append length source rows) := by
  have haccepts : v.Accepts length source rows ↔
      source.type = t ∧ (∀ row ∈ rows, row < source.capacity) ∧
        length + rows.length < UInt64.size ∧
          hasRoom t (c.grow (length + rows.length)).capacity = true := by
    rw [Accepts, h.type_eq, grown, Cells.capacity_grow, h.capacity_eq]
  by_cases hin : v.Accepts length source rows
  · have hcells := haccepts.mp hin
    have hread : ∀ row ∈ rows, ∃ x, source.get? row = some x ∧ x.fits t = true := fun row hrow =>
      hcells.1 ▸ hsource row (hcells.2.1 row hrow)
    obtain ⟨xs, hxs, hall⟩ := exists_mapM_forall₂ hread
    have hfit : ∀ x ∈ xs, x.fits t = true := fun x hx => by
      obtain ⟨row, -, -, hfit⟩ := exists_mem_left_of_forall₂ hall hx
      exact hfit
    obtain ⟨v', hcopy, hshows⟩ := (h.grow (length + rows.length)).copyRows hxs hfit
      (c.le_capacity_grow _).2
    refine .inl ⟨v', _, by rw [Edit.apply, append_ok hin hcopy]; rfl, ?_, hshows⟩
    rw [Edit.onCells?, if_pos hcells, hxs]
    rfl
  · obtain ⟨error, herror⟩ := append_refused hin
    exact .inr ⟨error, v, by rw [Edit.apply, herror]; rfl, if_neg fun hand => hin (haccepts.mpr hand),
      h⟩

/-- **Every operation does to a vector what it does to its array.** -/
theorem Shows.follows (h : v.Shows t c) {e : Edit} (he : e.Reads) : v.Follows t c e := by
  cases e with
  | set i x => exact h.follows_set i x
  | setNull i => exact h.follows_setNull i
  | copy i source j => exact h.follows_copy i source j
  | append length source rows => exact h.follows_append length he rows
  | grow more => exact h.follows_grow more

/-- **A vector shows its array** after any operations. -/
theorem Shows.run (h : v.Shows t c) {edits : List Edit} (hedits : ∀ e ∈ edits, e.Reads) :
    (Edit.run v edits).Shows t (Edit.runOnCells t c edits) := by
  induction edits generalizing v c with
  | nil => exact h
  | cons e rest ih =>
    have hrest := fun e he => hedits e (List.mem_cons_of_mem _ he)
    rw [Edit.run, Edit.runOnCells, List.foldl_cons, List.foldl_cons]
    obtain ⟨v', c', happly, hcells, hshows⟩ | ⟨error, v', happly, hcells, hshows⟩ :=
      h.follows (hedits e List.mem_cons_self)
    · rw [happly, hcells]
      exact ih hshows hrest
    · rw [happly, hcells]
      exact ih hshows hrest

/-- **A vector is an array of independent values.**  Take a new vector of any type, lists of lists
included, and do any operations on it, where rows are only added from vectors that can be read.

* Every slot can be read, and holds what the array has there: the value that was written to it last,
  `NULL` if it was marked `NULL` last, or the blank value of the type.
* One more operation is accepted where the array accepts it, and then every slot holds what the array
  has; the slots that it does not write hold what they held.  An operation that is refused, whatever
  has been written of a list by then, changes no slot. -/
theorem run_as_array (t : ColumnType) (n : Nat) {edits : List Edit}
    (hedits : ∀ e ∈ edits, e.Reads) :
    let v := Edit.run (new t n) edits
    let c := Edit.runOnCells t (.blank t n) edits
    (v.type = t ∧ v.capacity = c.capacity ∧ v.Readable ∧
      ∀ i < c.capacity, v.get? i = some (c.value i)) ∧
    ∀ e : Edit, e.Reads →
      (∃ v' c', e.apply v = (.ok (), v') ∧ e.onCells? t c = some c' ∧ v'.capacity = c'.capacity ∧
        (∀ i < c'.capacity, v'.get? i = some (c'.value i)) ∧
        ∀ i < v.capacity, ¬e.Touches i → v'.get? i = v.get? i) ∨
      (∃ error v', e.apply v = (.error error, v') ∧ e.onCells? t c = none ∧
        v'.capacity = v.capacity ∧ ∀ i < v.capacity, v'.get? i = v.get? i) := by
  intro v c
  have h : v.Shows t c := (shows_new t n).run hedits
  refine ⟨⟨h.type_eq, h.capacity_eq, h.formed.readable, h.value_eq⟩, fun e he => ?_⟩
  obtain ⟨v', c', happly, hcells, hshows⟩ | ⟨error, v', happly, hcells, hshows⟩ := h.follows he
  · obtain ⟨hle, hsame⟩ := Edit.value_of_onCells? hcells
    refine .inl ⟨v', c', happly, hcells, hshows.capacity_eq, hshows.value_eq, fun i hi hnot => ?_⟩
    have hi : i < c.capacity := h.capacity_eq ▸ hi
    rw [hshows.value_eq i (Nat.lt_of_lt_of_le hi hle), hsame i hnot, h.value_eq i hi]
  · refine .inr ⟨error, v', happly, hcells, hshows.capacity_eq.trans h.capacity_eq.symm,
      fun i hi => ?_⟩
    have hi : i < c.capacity := h.capacity_eq ▸ hi
    rw [hshows.value_eq i hi, h.value_eq i hi]

/-- Operations on lists of lists of integers: the second slot is written twice, the second time with a
list that is refused at its second item, after its first was written; then a slot past the capacity is
marked, and two rows are added from the vector itself. -/
def nestedEdits : List Edit :=
  let one : Scalar := .list [.list [.integer 1, .null], .null]
  let source := Edit.run (new (.list (.list .integer)) 2) [.set 0 one, .setNull 1]
  [.set 1 (.list [.list [.integer 7]]), .set 1 (.list [.list [.integer 8], .boolean true]),
    .setNull 4, .append 2 source [0, 1, 0], .set 0 (.list [])]

theorem nestedEdits_read : ∀ e ∈ nestedEdits, e.Reads := by
  have hsource : (Edit.run (new (.list (.list .integer)) 2)
      [.set 0 (.list [.list [.integer 1, .null], .null]), .setNull 1]).Readable :=
    ((shows_new _ 2).run fun e he => by
      obtain rfl | rfl := by simpa using he
      all_goals exact trivial).formed.readable
  intro e he
  obtain rfl | rfl | rfl | rfl | rfl := by simpa [nestedEdits] using he
  · exact trivial
  · exact trivial
  · exact trivial
  · exact hsource
  · exact trivial

/-- What is read after the operations: the empty list that was written last, the list that was not
overwritten, and the rows that were added, one of them where a mark had been made. -/
theorem run_as_array_nested :
    let v := Edit.run (new (.list (.list .integer)) 2) nestedEdits
    v.capacity = 5 ∧ v.get? 0 = some (.list []) ∧ v.get? 1 = some (.list [.list [.integer 7]]) ∧
      v.get? 2 = some (.list [.list [.integer 1, .null], .null]) ∧ v.get? 3 = some .null ∧
      v.get? 4 = some (.list [.list [.integer 1, .null], .null]) := by
  obtain ⟨⟨-, hcapacity, -, hget⟩, -⟩ :=
    run_as_array (.list (.list .integer)) 2 nestedEdits_read
  have hfive : (Edit.runOnCells (.list (.list .integer)) (.blank (.list (.list .integer)) 2)
      nestedEdits).capacity = 5 := rfl
  rw [hfive] at hcapacity hget
  exact ⟨hcapacity, (hget 0 (by decide)).trans rfl, (hget 1 (by decide)).trans rfl,
    (hget 2 (by decide)).trans rfl, (hget 3 (by decide)).trans rfl, (hget 4 (by decide)).trans rfl⟩

end ValueVector
end ColumnStore
