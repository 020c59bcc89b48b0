/-
# Vectors that are used again

After a reset a vector of texts is as good as a new one (`Formed.shows_reset`).  A vector of lists is
not: every slot is valid again, but its window stays, and reads as many items as it had before from the
vector of items, which is filled anew from its start (`Formed.get?_reset`).  So a list is empty after a
reset only if its window was, and a list that is written to one slot can be read in others.  What can
be relied on are the slots that were written since: each holds what was written to it last
(`Reached.reset_reuse`).
-/

import ColumnStore.Proofs.Vector.Cells

namespace ColumnStore
namespace ValueVector

variable {v : ValueVector} {live : Nat → Prop} {t : ColumnType} {i n : Nat} {x : Scalar}

/-! ## What a reset leaves -/

@[simp] theorem type_reset (v : ValueVector) : v.reset.type = v.type := by
  induction v with
  | flat t marks slots => cases t <;> rfl
  | list marks windows filled items ih => rw [reset, type, type, ih]

@[simp] theorem capacity_reset (v : ValueVector) : v.reset.capacity = v.capacity := by
  cases v with
  | flat t marks slots => cases t <;> simp [reset, capacity]
  | list => rfl

/-- **Every slot is valid again.** -/
@[simp] theorem validity_reset (v : ValueVector) : v.reset.validity = v.validity.reset := by
  cases v with
  | flat t marks slots => cases t <;> rfl
  | list => rfl

theorem Sound.reset (h : v.Sound) : v.reset.Sound := by
  cases v with
  | list => exact absurd h not_false
  | flat t marks slots =>
    obtain ⟨hnested, -, hcapacity, hslots⟩ := h
    by_cases ht : t = .varchar
    · subst ht
      refine ⟨rfl, marks.sound_reset, by simpa [Validity.reset] using hcapacity, fun x hx => ?_⟩
      obtain ⟨-, -, rfl⟩ := Array.mem_map.mp hx
      exact ⟨rfl, rfl⟩
    · have hreset : (flat t marks slots).reset = .flat t marks.reset slots := by
        cases t <;> first | rfl | exact absurd rfl ht
      rw [hreset]
      exact ⟨hnested, marks.sound_reset, hcapacity, hslots⟩

/-- **A vector that was reset can be read,** but no slot is in use. -/
theorem Formed.reset (h : v.Formed live) : v.reset.Formed fun _ => False := by
  induction h with
  | flat sound => exact sound.reset.formed _
  | @list marks windows filled items live sound capacity_eq filled_le within placed items_formed ih =>
    refine .list marks.sound_reset capacity_eq (Nat.zero_le _) (fun i w hw => ?_)
      (fun _ _ _ hlive => hlive.elim) (ih.mono fun j hj => absurd hj (Nat.not_lt_zero j))
    rw [capacity_reset]
    exact within i w hw

/-- **A list slot after a reset** holds as many items as before, whatever the vector of items holds in
its window by then. -/
theorem Formed.get?_reset {w : Window} {items : ValueVector} (h : v.Formed live)
    (hw : v.window? i = some (some w)) (hitems : v.items? = some items) :
    ∃ xs, v.reset.get? i = some (.list xs) ∧ xs.length = w.length ∧
      ∀ k x, xs[k]? = some x → items.reset.get? (w.start + k) = some x := by
  cases h with
  | flat => cases hitems
  | @list marks windows filled items' live sound capacity_eq filled_le within placed items_formed =>
    obtain rfl := Option.some.inj hitems
    obtain ⟨w', hw', hsame⟩ := Option.map_eq_some_iff.mp hw
    obtain rfl := Option.some.inj hsame
    have hread : ∀ k < w'.length, ∃ x, items'.reset.get? (w'.start + k) = some x := fun k hk => by
      have hle := within i w' hw'
      obtain ⟨x, hx, -⟩ := items_formed.reset.get?_of_lt (i := w'.start + k)
        (by rw [capacity_reset]; omega)
      exact ⟨x, hx⟩
    obtain ⟨xs, hlen, hxs⟩ := exists_values hread
    have hwindow : windows[i]? = some ⟨w'.start, xs.length⟩ := by rw [hw', hlen]
    exact ⟨xs, get?_list rfl hwindow hxs, hlen, hxs⟩

/-- **A vector of texts that was reset** is as good as a new one. -/
theorem Formed.shows_reset (h : v.Formed live) (ht : v.type = .varchar) :
    v.reset.Shows .varchar (.blank .varchar v.capacity) := by
  cases h with
  | list => cases ht
  | @flat t marks slots live sound =>
    obtain rfl : t = .varchar := ht
    refine ⟨sound.reset.formed _, rfl, capacity_reset _, fun i hi => ?_, fun i hi => rfl⟩
    have hi : i < slots.size := hi
    rw [get?_of_valid (by rw [validity_reset]; rfl), ValueVector.reset, raw?, Array.getElem?_map,
      Array.getElem?_eq_getElem hi]
    rfl

/-! ## Vectors with any history -/

/-- A vector after any operations, resets among them. -/
inductive Reached : ValueVector → Prop
  | new (t : ColumnType) (n : Nat) : Reached (new t n)
  | edit {v : ValueVector} (h : Reached v) {e : Edit} (he : e.Reads) : Reached (e.apply v).2
  | resize {v : ValueVector} (h : Reached v) (n : Nat) : Reached (v.resize n)
  | reset {v : ValueVector} (h : Reached v) : Reached v.reset

theorem Formed.edit (h : v.Formed fun _ => False) {e : Edit} (he : e.Reads) :
    (e.apply v).2.Formed fun _ => False := by
  have hset : ∀ i x, (v.set i x).2.Formed fun _ => False := fun i x => by
    obtain ⟨-, v', hok, hformed, -⟩ | ⟨-, e, v', herror, hformed, -⟩ := h.set i x
    · exact hok ▸ hformed.mono fun _ => False.elim
    · exact herror ▸ hformed
  cases e with
  | set i x => exact hset i x
  | setNull i =>
    rw [Edit.apply]
    cases hv : v.setNull? i with
    | none => exact h
    | some v' => exact (h.setNull? hv).1.mono fun _ => False.elim
  | copy i source j =>
    cases hx : source.get? j with
    | some x => exact (congrArg Prod.snd (copySlot_eq (v := v) (i := i) hx)) ▸ hset i x
    | none =>
      obtain ⟨e, herror⟩ := copySlot_none hx v i
      exact congrArg Prod.snd herror ▸ h
  | append length source rows =>
    rw [Edit.apply]
    by_cases hin : v.Accepts length source rows
    · obtain ⟨htype, hrows, -, -⟩ := id hin
      obtain ⟨hroomy, htype', -, hroom, -⟩ := h.grow (length + rows.length)
      have hread : ∀ row ∈ rows, ∃ x, source.get? row = some x ∧
          x.fits (v.grow (length + rows.length)).type = true := fun row hrow => by
        rw [htype', ← htype]
        exact he row (hrows row hrow)
      obtain ⟨v', hcopy, hformed, -⟩ := hroomy.copyRows hread hroom
      rw [append_ok hin hcopy]
      exact hformed.mono fun _ => False.elim
    · obtain ⟨e, herror⟩ := append_refused hin
      rw [herror]
      exact h
  | grow more =>
    rw [Edit.apply, resize?]
    split
    · rename_i hv
      split at hv
      · obtain rfl := Option.some.inj hv
        exact (h.resize _).mono fun _ => False.elim
      · cases hv
    · exact h

/-- **Whatever was done to a vector,** it can be read. -/
theorem Reached.formed (h : v.Reached) : v.Formed fun _ => False := by
  induction h with
  | new t n => exact (formed_new t n).mono fun _ => False.elim
  | edit _ he ih => exact ih.edit he
  | resize _ n ih => exact (ih.resize n).mono fun _ => False.elim
  | reset _ ih => exact ih.reset

/-! ## Slots that were written since -/

/-- Notes what was written to a slot of a vector of a type and a capacity, if it was accepted. -/
def note (t : ColumnType) (n : Nat) (written : Nat → Option Scalar) (write : Nat × Scalar) :
    Nat → Option Scalar :=
  if write.1 < n ∧ write.2.fits t then fun i => if i = write.1 then some write.2 else written i
  else written

/-- A vector with the noted values in the slots that have one. -/
structure Recalls (v : ValueVector) (t : ColumnType) (n : Nat) (written : Nat → Option Scalar) :
    Prop where
  formed : v.Formed fun i => (written i).isSome = true
  type_eq : v.type = t
  capacity_eq : v.capacity = n
  get?_eq : ∀ i x, written i = some x → i < n ∧ v.get? i = some x

variable {written : Nat → Option Scalar}

/-- **A write** changes no slot that was written before. -/
theorem Recalls.set (h : v.Recalls t n written) (i : Nat) (x : Scalar) :
    (v.set i x).2.Recalls t n (note t n written (i, x)) := by
  have hiff : (i < v.capacity ∧ x.fits v.type = true) ↔ i < n ∧ x.fits t = true := by
    rw [h.capacity_eq, h.type_eq]
  obtain ⟨hin, v', hset, hformed, hkeeps, hget⟩ | ⟨hnot, e, v', hset, hformed, hkeeps⟩ :=
    h.formed.set i x
  · rw [hset, note, if_pos (hiff.mp hin)]
    refine ⟨hformed.mono fun j hj => ?_, hkeeps.type_eq.trans h.type_eq,
      hkeeps.capacity_eq.trans h.capacity_eq, fun j y hy => ?_⟩
    · by_cases hij : j = i
      · exact .inr hij
      · exact .inl (by simpa only [if_neg hij] using hj)
    · by_cases hij : j = i
      · subst hij
        rw [if_pos rfl] at hy
        obtain rfl := Option.some.inj hy
        exact ⟨(hiff.mp hin).1, hget⟩
      · rw [if_neg hij] at hy
        obtain ⟨hj, hold⟩ := h.get?_eq j y hy
        have hlive := Option.isSome_iff_exists.mpr ⟨y, hy⟩
        exact ⟨hj, (hkeeps.get?_eq j (h.capacity_eq.symm ▸ hj) ⟨hlive, hij⟩).trans hold⟩
  · rw [hset, note, if_neg fun hand => hnot (hiff.mpr hand)]
    refine ⟨hformed, hkeeps.type_eq.trans h.type_eq, hkeeps.capacity_eq.trans h.capacity_eq,
      fun j y hy => ?_⟩
    obtain ⟨hj, hold⟩ := h.get?_eq j y hy
    exact ⟨hj, (hkeeps.get?_eq j (h.capacity_eq.symm ▸ hj)
      (Option.isSome_iff_exists.mpr ⟨y, hy⟩)).trans hold⟩

theorem Recalls.setEach (h : v.Recalls t n written) (writes : List (Nat × Scalar)) :
    (writes.foldl (fun v write => (v.set write.1 write.2).2) v).Recalls t n
      (writes.foldl (note t n) written) := by
  induction writes generalizing v written with
  | nil => exact h
  | cons write rest ih => exact ih (h.set write.1 write.2)

/-- **A vector that is used again,** whatever was done to it before.

* Every slot is valid again and holds a value of its type.
* A slot of a vector of texts holds the empty text.
* A list slot holds as many items as its window had, read from the vector of items as that was reset:
  it is empty only if its window was.
* From then on a slot that was written holds what was written to it last, whatever is written to other
  slots. -/
theorem Reached.reset_reuse (h : v.Reached) :
    (∀ i < v.capacity, v.reset.validity.get? i = some true ∧
      ∃ x, v.reset.get? i = some x ∧ x.fits v.type = true) ∧
    (v.type = .varchar → ∀ i < v.capacity, v.reset.get? i = some (.varchar "")) ∧
    (∀ i w items, v.window? i = some (some w) → v.items? = some items →
      ∃ xs, v.reset.get? i = some (.list xs) ∧ xs.length = w.length ∧
        ∀ k x, xs[k]? = some x → items.reset.get? (w.start + k) = some x) ∧
    ∀ (writes : List (Nat × Scalar)) (i : Nat) (x : Scalar),
      writes.foldl (note v.type v.capacity) (fun _ => none) i = some x →
        (writes.foldl (fun v write => (v.set write.1 write.2).2) v.reset).get? i = some x := by
  have hformed := h.formed
  refine ⟨fun i hi => ⟨by rw [validity_reset]; rfl, ?_⟩, fun ht i hi => ?_,
    fun i w items hw hitems => hformed.get?_reset hw hitems, fun writes i x hx => ?_⟩
  · obtain ⟨x, hx, hfits⟩ := hformed.reset.get?_of_lt (i := i) (by rwa [capacity_reset])
    exact ⟨x, hx, by rwa [type_reset] at hfits⟩
  · exact (hformed.shows_reset ht).value_eq i hi
  · have hstart : v.reset.Recalls v.type v.capacity fun _ => none :=
      ⟨hformed.reset.mono fun _ hj => (by cases hj), type_reset v, capacity_reset v,
        fun _ _ hx => (by cases hx)⟩
    exact ((hstart.setEach writes).get?_eq i x hx).2

/-- A list of two numbers is still there after a reset, and changes when another slot is written. -/
example :
    let v := (Edit.run (new (.list .integer) 2) [.set 0 (.list [.integer 1, .integer 2])]).reset
    v.get? 0 = some (.list [.integer 1, .integer 2]) ∧
      (v.set 1 (.list [.integer 9])).2.get? 0 = some (.list [.integer 9, .integer 2]) := ⟨rfl, rfl⟩

end ValueVector
end ColumnStore
