/-
# Masks and vectors that shrink

Next to a mask stands a list with a flag for each slot, `true` for a valid one.  A mask keeps its marks
in whole blocks, so after any operations it is a list of flags for whole blocks, of which those below
the capacity are for slots (`Validity.run_as_blocks`).  A mask that shrinks keeps the marks of the slots
that it gives up in its last block, and has them again when it grows.  So it is the plain list, which
drops the flags of such slots and has valid ones in their place, just as long as no `NULL` is left
behind in the last block (`Validity.run_as_list`).

A vector drops the values of the slots that it gives up and has blank ones when it grows, but where a
mark was left behind the slot reads `NULL` (`ValueVector.run_with_resizes`).
-/

import ColumnStore.Proofs.Segment.Bitmaps
import ColumnStore.Proofs.Vector.Cells

namespace ColumnStore
namespace Validity

variable {v : Validity} {flags plain : List Bool} {n i : Nat}

/-! ## Lists of flags -/

/-- Flags for `n` slots: those of other slots are dropped, new slots are valid. -/
def sized (n : Nat) (flags : List Bool) : List Bool :=
  flags.take n ++ List.replicate (n - flags.length) true

@[simp] theorem length_sized (n : Nat) (flags : List Bool) : (sized n flags).length = n := by
  rw [sized, List.length_append, List.length_take, List.length_replicate]
  omega

theorem getElem?_sized (n : Nat) (flags : List Bool) (i : Nat) :
    (sized n flags)[i]? = if i < n then some (flags[i]?.getD true) else none := by
  split
  · rename_i hi
    rcases Nat.lt_or_ge i flags.length with hold | hnew
    · rw [sized, List.getElem?_append_left (by rw [List.length_take]; omega),
        List.getElem?_take_of_lt hi, List.getElem?_eq_getElem hold]
      rfl
    · rw [sized, List.getElem?_append_right (by rw [List.length_take]; omega),
        List.getElem?_replicate_of_lt (by rw [List.length_take]; omega),
        List.getElem?_eq_none hnew]
      rfl
  · rename_i hi
    exact List.getElem?_eq_none (by rw [length_sized]; omega)

theorem getElem?_sized_eq_false :
    (sized n flags)[i]? = some false ↔ i < n ∧ flags[i]? = some false := by
  rw [getElem?_sized]
  by_cases hi : i < n
  · rw [if_pos hi, and_iff_right hi]
    cases flags[i]? <;> simp
  · simp [hi]

theorem getElem?_set_false (hi : i < flags.length) (j : Nat) :
    (flags.set i false)[j]? = some false ↔ j = i ∨ flags[j]? = some false := by
  rw [List.getElem?_set]
  by_cases hj : i = j
  · rw [if_pos hj, if_pos hi]
    exact iff_of_true rfl (.inl hj.symm)
  · rw [if_neg hj, or_iff_right (Ne.symm hj)]

theorem getElem?_set_true (flags : List Bool) (i j : Nat) :
    (flags.set i true)[j]? = some false ↔ j ≠ i ∧ flags[j]? = some false := by
  rw [List.getElem?_set]
  by_cases hj : i = j
  · rw [if_pos hj]
    exact iff_of_false (by split <;> simp) fun h => h.1 hj.symm
  · rw [if_neg hj, and_iff_right (Ne.symm hj)]

theorem getElem?_replicate_true (n i : Nat) : (List.replicate n true)[i]? ≠ some false := by
  rw [List.getElem?_replicate]
  split <;> simp

/-- The flags of whole blocks; those past the last slot are not `NULL`. -/
def whole (flags : List Bool) : List Bool := sized (markCount flags.length) flags

theorem whole_eq (flags : List Bool) :
    whole flags = flags ++ List.replicate (markCount flags.length - flags.length) true := by
  rw [whole, sized, List.take_of_length_le (le_markCount flags.length)]

theorem take_whole (flags : List Bool) : (whole flags).take flags.length = flags := by
  rw [whole_eq, List.take_left]

theorem whole_replicate (n : Nat) :
    whole (List.replicate n true) = List.replicate (markCount n) true := by
  rw [whole_eq, List.length_replicate, List.replicate_append_replicate,
    Nat.add_sub_cancel' (le_markCount n)]

theorem set_whole (hi : i < flags.length) (b : Bool) :
    (whole flags).set i b = whole (flags.set i b) := by
  rw [whole_eq, whole_eq, List.set_append_left _ _ hi, List.length_set]

theorem getElem?_whole_eq_false : (whole flags)[i]? = some false ↔ flags[i]? = some false := by
  rw [whole, getElem?_sized_eq_false]
  refine and_iff_right_of_imp fun h => ?_
  obtain ⟨hi, -⟩ := List.getElem?_eq_some_iff.mp h
  exact Nat.lt_of_lt_of_le hi (le_markCount _)

/-- Lists of flags for the same slots with the same `NULL`s are the same. -/
theorem flags_ext {flags' : List Bool} (hlen : flags.length = flags'.length)
    (hnull : ∀ i : Nat, flags[i]? = some false ↔ flags'[i]? = some false) : flags = flags' := by
  refine List.ext_getElem hlen fun i hi hi' => ?_
  have hsame := hnull i
  rw [List.getElem?_eq_getElem hi, List.getElem?_eq_getElem hi'] at hsame
  exact mark_eq hsame

/-- **Whole blocks that are changed with the capacity** are the whole blocks of the changed flags, just
when no `NULL` is left behind in the last block. -/
theorem sized_whole_iff :
    sized (markCount n) (whole flags) = whole (sized n flags) ↔
      ∀ i < markCount n, n ≤ i → flags[i]? ≠ some false := by
  have hlen : (sized (markCount n) (whole flags)).length = (whole (sized n flags)).length := by
    rw [length_sized, whole, length_sized, length_sized]
  have hnull : ∀ i : Nat, (sized (markCount n) (whole flags))[i]? = some false ↔
      i < markCount n ∧ flags[i]? = some false := fun i => by
    rw [getElem?_sized_eq_false, getElem?_whole_eq_false]
  have hkept : ∀ i : Nat, (whole (sized n flags))[i]? = some false ↔ i < n ∧ flags[i]? = some false :=
    fun i => by rw [getElem?_whole_eq_false, getElem?_sized_eq_false]
  constructor
  · intro heq i hi hn hfalse
    have hback := (hkept i).mp (heq ▸ (hnull i).mpr ⟨hi, hfalse⟩)
    exact Nat.not_lt_of_le hn hback.1
  · intro hclean
    refine flags_ext hlen fun i => ?_
    rw [hnull, hkept]
    constructor
    · rintro ⟨hi, hfalse⟩
      exact ⟨Nat.lt_of_not_le fun hn => hclean i hi hn hfalse, hfalse⟩
    · rintro ⟨hi, hfalse⟩
      exact ⟨Nat.lt_of_lt_of_le hi (le_markCount n), hfalse⟩

/-! ## Operations -/

/-- An operation on a mask. -/
inductive Edit where
  | setValid (i : Nat)
  | setNull (i : Nat)
  | reset
  | resize (n : Nat)
  deriving DecidableEq, Repr

namespace Edit

/-- Does an operation, none for a slot that has no mark. -/
def onMask? (v : Validity) : Edit → Option Validity
  | .setValid i => v.setValid? i
  | .setNull i => v.setNull? i
  | .reset => some v.reset
  | .resize n => some (v.resize n)

/-- Does operations one after the other. -/
def run? (v : Validity) (edits : List Edit) : Option Validity := edits.foldlM onMask? v

/-- What an operation makes of a list that has `room n` flags for `n` slots. -/
def onFlags (room : Nat → Nat) (flags : List Bool) : Edit → List Bool
  | .setValid i => flags.set i true
  | .setNull i => flags.set i false
  | .reset => List.replicate flags.length true
  | .resize n => sized (room n) flags

/-- What operations make of a list of flags. -/
def runOnFlags (room : Nat → Nat) (flags : List Bool) (edits : List Edit) : List Bool :=
  edits.foldl (onFlags room) flags

/-- Whether an operation marks only slots that are there. -/
def Within (flags : List Bool) : Edit → Prop
  | .setValid i | .setNull i => i < flags.length
  | .reset | .resize _ => True

/-- Whether an operation leaves no `NULL` of a slot that is given up behind in the last block. -/
def Clears (flags : List Bool) : Edit → Prop
  | .resize n => ∀ i < markCount n, n ≤ i → flags[i]? ≠ some false
  | .setValid _ | .setNull _ | .reset => True

/-- A mask that grows gives up no slot. -/
theorem clears_resize_of_le (h : flags.length ≤ n) : (resize n).Clears flags := fun i _ hn => by
  rw [List.getElem?_eq_none (Nat.le_trans h hn)]
  exact (Option.some_ne_none false).symm

/-- A mask that is cut at the end of a block keeps no mark of a slot that it gives up. -/
theorem clears_resize_of_markCount_eq (h : markCount n = n) : (resize n).Clears flags :=
  fun _ hi hn => absurd (h ▸ hi) (Nat.not_lt_of_le hn)

/-- Whether each operation is as it should be for the list that those before it have made. -/
def Along (P : List Bool → Edit → Prop) : List Bool → List Edit → Prop
  | _, [] => True
  | flags, e :: rest => P flags e ∧ Along P (e.onFlags id flags) rest

/-- **An operation that leaves nothing behind** does to whole blocks what it does to the flags. -/
theorem onFlags_whole {e : Edit} (hwithin : e.Within flags) (hclears : e.Clears flags) :
    e.onFlags markCount (whole flags) = whole (e.onFlags id flags) := by
  cases e with
  | setValid i => exact set_whole hwithin true
  | setNull i => exact set_whole hwithin false
  | reset => rw [onFlags, onFlags, whole_replicate, whole, length_sized]
  | resize n => exact sized_whole_iff.mpr hclears

end Edit

/-! ## A mask and its flags -/

/-- All that can be read of a mask is what a list of flags says. -/
structure Reads (v : Validity) (flags : List Bool) : Prop where
  capacity_eq : v.capacity = flags.length
  get?_eq : ∀ i < flags.length, v.get? i = flags[i]?
  countNull?_eq : ∀ n ≤ flags.length, v.countNull? n = some ((flags.take n).count false)
  toNullBitmap?_eq : ∀ n ≤ flags.length, ∃ bits, v.toNullBitmap? n = some bits ∧
    bits.length = (n + 7) / 8 ∧
      ∀ i < 8 * bits.length, bit? bits i = some (decide (i < n ∧ flags[i]? = some false))

/-- The slots decide about counts and bitmaps. -/
theorem reads_of_get? (h : v.Sound) (hcapacity : v.capacity = flags.length)
    (hget : ∀ i < flags.length, v.get? i = flags[i]?) : v.Reads flags := by
  have hmarks : ∀ n ≤ flags.length, v.firstMarks? n = some (flags.take n) := fun n hn => by
    obtain ⟨marks, hmarks⟩ := firstMarks?_isSome h (hcapacity ▸ hn)
    obtain ⟨hlen, hsame⟩ := firstMarks?_eq_some hmarks
    rw [hmarks, Option.some.injEq]
    refine List.ext_getElem? fun i => ?_
    rcases Nat.lt_or_ge i n with hi | hi
    · rw [← hsame i hi, List.getElem?_take_of_lt hi, hget i (Nat.lt_of_lt_of_le hi hn)]
    · rw [List.getElem?_eq_none (by omega),
        List.getElem?_eq_none (by rw [List.length_take]; omega)]
  refine ⟨hcapacity, hget, fun n hn => ?_, fun n hn => ?_⟩
  · rw [countNull?]
    split
    · rename_i hall
      have hvalid := hmarks n hn
      rw [firstMarks?, Option.isNone_iff_eq_none.mp hall, Option.some.injEq] at hvalid
      rw [← hvalid, List.count_replicate]
      rfl
    · rw [hmarks n hn]
      rfl
  · have hlen : ((flags.take n).map (!·)).length = n := by
      rw [List.length_map, List.length_take, Nat.min_eq_left hn]
    refine ⟨_, by rw [toNullBitmap?, hmarks n hn]; rfl, by rw [length_packBits, hlen], fun i hi => ?_⟩
    rw [bit?_packBits_eq hi, List.getElem?_map, List.getElem?_take]
    by_cases hin : i < n
    · cases hflag : flags[i]? with
      | none => simp [hin]
      | some flag => cases flag <;> simp [hin]
    · simp [hin]

/-- A mask with the flags of a list for the slots of whole blocks. -/
structure Marked (v : Validity) (flags : List Bool) : Prop where
  sound : v.Sound
  length_eq : flags.length = markCount v.capacity
  null_iff : ∀ i, v.get? i = some false ↔ flags[i]? = some false

theorem marked_new (n : Nat) : (new n).Marked (List.replicate (markCount n) true) where
  sound := sound_new n
  length_eq := List.length_replicate
  null_iff i := iff_of_false (by simp [new, get?]) (getElem?_replicate_true _ i)

/-- What is read of a mask are the flags below its capacity. -/
theorem Marked.reads (h : v.Marked flags) : v.Reads (flags.take v.capacity) := by
  have hlen : (flags.take v.capacity).length = v.capacity := by
    rw [List.length_take, h.length_eq, Nat.min_eq_left (le_markCount _)]
  refine reads_of_get? h.sound hlen.symm fun i hi => ?_
  rw [hlen] at hi
  obtain ⟨b, hb⟩ := get?_of_lt h.sound hi
  have hi' : i < flags.length := h.length_eq ▸ Nat.lt_of_lt_of_le hi (le_markCount _)
  have hsame := h.null_iff i
  rw [hb, List.getElem?_eq_getElem hi'] at hsame
  rw [hb, List.getElem?_take_of_lt hi, List.getElem?_eq_getElem hi', mark_eq hsame]

theorem Marked.setNull? (h : v.Marked flags) (hi : i < flags.length) :
    ∃ v', v.setNull? i = some v' ∧ v'.capacity = v.capacity ∧ v'.Marked (flags.set i false) := by
  obtain ⟨v', hset⟩ := Option.isSome_iff_exists.mp
    ((isSome_setNull? h.sound i).mpr (h.length_eq ▸ hi))
  obtain ⟨hsound, hcapacity, hnull⟩ := setNull?_eq_some h.sound hset
  refine ⟨v', hset, hcapacity, hsound, by rw [List.length_set, hcapacity, h.length_eq], fun j => ?_⟩
  rw [hnull, h.null_iff, getElem?_set_false hi]

theorem Marked.setValid? (h : v.Marked flags) (hi : i < v.capacity) :
    ∃ v', v.setValid? i = some v' ∧ v'.capacity = v.capacity ∧ v'.Marked (flags.set i true) := by
  obtain ⟨v', hset, -⟩ := setValid?_of_lt h.sound hi
  obtain ⟨hsound, hcapacity, hnull⟩ := setValid?_eq_some h.sound hset
  refine ⟨v', hset, hcapacity, hsound, by rw [List.length_set, hcapacity, h.length_eq], fun j => ?_⟩
  rw [hnull, h.null_iff, getElem?_set_true]

theorem Marked.reset (h : v.Marked flags) : v.reset.Marked (List.replicate flags.length true) where
  sound := sound_reset v
  length_eq := List.length_replicate.trans h.length_eq
  null_iff i := iff_of_false (by simp [Validity.reset, get?]) (getElem?_replicate_true _ i)

/-- **A change of the capacity** drops or adds the flags of whole blocks. -/
theorem Marked.resize (h : v.Marked flags) (n : Nat) :
    (v.resize n).Marked (sized (markCount n) flags) where
  sound := sound_resize v n
  length_eq := length_sized _ flags
  null_iff i := by rw [get?_resize_eq_false, getElem?_sized_eq_false, h.null_iff]

/-- **An operation on a slot that is there** does to a mask what it does to its flags. -/
theorem Marked.onMask? {e : Edit} (h : v.Marked flags) (hcapacity : v.capacity = plain.length)
    (he : e.Within plain) :
    ∃ v', e.onMask? v = some v' ∧ v'.capacity = (e.onFlags id plain).length ∧
      v'.Marked (e.onFlags markCount flags) := by
  cases e with
  | setValid i =>
    obtain ⟨v', hset, hsame, hmarked⟩ := h.setValid? (i := i) (hcapacity ▸ he)
    exact ⟨v', hset, by rw [hsame, hcapacity, Edit.onFlags, List.length_set], hmarked⟩
  | setNull i =>
    have hi : i < flags.length :=
      h.length_eq ▸ Nat.lt_of_lt_of_le (hcapacity ▸ he) (le_markCount _)
    obtain ⟨v', hset, hsame, hmarked⟩ := h.setNull? hi
    exact ⟨v', hset, by rw [hsame, hcapacity, Edit.onFlags, List.length_set], hmarked⟩
  | reset => exact ⟨_, rfl, hcapacity.trans List.length_replicate.symm, h.reset⟩
  | resize n => exact ⟨_, rfl, (length_sized _ plain).symm, h.resize n⟩

theorem Marked.run? {edits : List Edit} (h : v.Marked flags) (hcapacity : v.capacity = plain.length)
    (hedits : Edit.Along Edit.Within plain edits) :
    ∃ v', Edit.run? v edits = some v' ∧ v'.capacity = (Edit.runOnFlags id plain edits).length ∧
      v'.Marked (Edit.runOnFlags markCount flags edits) := by
  induction edits generalizing v flags plain with
  | nil => exact ⟨v, rfl, hcapacity, h⟩
  | cons e rest ih =>
    obtain ⟨v', hmask, hcapacity', hmarked⟩ := h.onMask? hcapacity hedits.1
    obtain ⟨v'', hrun, hlast⟩ := ih hmarked hcapacity' hedits.2
    refine ⟨v'', ?_, hlast⟩
    rw [Edit.run?, List.foldlM_cons, hmask]
    exact hrun

/-! ## After any operations -/

/-- **No `NULL` is lost** between flags for slots and flags for whole blocks. -/
theorem Edit.null_of_runOnFlags {edits : List Edit} (hlen : plain.length ≤ flags.length)
    (hnull : ∀ i : Nat, plain[i]? = some false → flags[i]? = some false)
    (hedits : Edit.Along Edit.Within plain edits) (i : Nat) :
    (Edit.runOnFlags id plain edits)[i]? = some false →
      (Edit.runOnFlags markCount flags edits)[i]? = some false := by
  induction edits generalizing plain flags with
  | nil => exact hnull i
  | cons e rest ih =>
    refine ih ?_ (fun j hj => ?_) hedits.2
    · cases e with
      | resize n => simpa [Edit.onFlags] using le_markCount n
      | _ => simpa [Edit.onFlags] using hlen
    · cases e with
      | setValid k =>
        rw [Edit.onFlags, getElem?_set_true] at hj ⊢
        exact ⟨hj.1, hnull j hj.2⟩
      | setNull k =>
        have hk : k < plain.length := hedits.1
        rw [Edit.onFlags, getElem?_set_false hk] at hj
        rw [Edit.onFlags, getElem?_set_false (Nat.lt_of_lt_of_le hk hlen)]
        exact hj.imp_right (hnull j)
      | reset => exact absurd hj (getElem?_replicate_true _ j)
      | resize n =>
        rw [Edit.onFlags, getElem?_sized_eq_false] at hj ⊢
        exact ⟨Nat.lt_of_lt_of_le hj.1 (le_markCount n), hnull j hj.2⟩

/-- **A mask is a list of flags for whole blocks.**  Take a new mask of any capacity and mark any slots
that it has, reset it and make it larger or smaller, in any order.

* All that can be read of it then are the flags below the capacity of a list that drops and adds whole
  blocks with the capacity.
* A slot that the plain list has as `NULL` is `NULL`. -/
theorem run_as_blocks (n : Nat) {edits : List Edit}
    (hedits : Edit.Along Edit.Within (List.replicate n true) edits) :
    let plain := Edit.runOnFlags id (List.replicate n true) edits
    let blocks := Edit.runOnFlags markCount (List.replicate (markCount n) true) edits
    ∃ v, Edit.run? (new n) edits = some v ∧ v.capacity = plain.length ∧
      v.Reads (blocks.take v.capacity) ∧ ∀ i : Nat, plain[i]? = some false → v.get? i = some false := by
  intro plain blocks
  obtain ⟨v, hrun, hcapacity, hmarked⟩ :=
    (marked_new n).run? (List.length_replicate (n := n) (a := true)).symm hedits
  have hlen : (List.replicate n true).length ≤ (List.replicate (markCount n) true).length := by
    rw [List.length_replicate, List.length_replicate]
    exact le_markCount n
  refine ⟨v, hrun, hcapacity, hmarked.reads, fun i hi => (hmarked.null_iff i).mpr ?_⟩
  exact Edit.null_of_runOnFlags hlen (fun j hj => absurd hj (getElem?_replicate_true n j)) hedits i hi

theorem Edit.runOnFlags_whole {edits : List Edit} (hwithin : Edit.Along Edit.Within flags edits)
    (hclears : Edit.Along Edit.Clears flags edits) :
    Edit.runOnFlags markCount (whole flags) edits = whole (Edit.runOnFlags id flags edits) := by
  induction edits generalizing flags with
  | nil => rfl
  | cons e rest ih =>
    rw [Edit.runOnFlags, Edit.runOnFlags, List.foldl_cons, List.foldl_cons,
      Edit.onFlags_whole hwithin.1 hclears.1]
    exact ih hwithin.2 hclears.2

/-- **A mask with nothing left behind** shows the plain list after one more change of the capacity. -/
theorem Marked.reads_resize (h : v.Marked (whole flags)) (n : Nat) :
    (v.resize n).Reads (sized n flags) := by
  have htake : (sized (markCount n) (whole flags)).take n = sized n flags := by
    refine flags_ext ?_ fun i => ?_
    · rw [List.length_take, length_sized, length_sized, Nat.min_eq_left (le_markCount n)]
    rw [List.getElem?_take, getElem?_sized_eq_false]
    by_cases hi : i < n
    · rw [if_pos hi, getElem?_sized_eq_false, getElem?_whole_eq_false, and_iff_right hi,
        and_iff_right (Nat.lt_of_lt_of_le hi (le_markCount n))]
    · simp [hi]
  exact htake ▸ (h.resize n).reads

/-- **What is left behind is seen when the mask grows again.** -/
theorem Marked.reads_resize_resize_iff (h : v.Marked (whole flags)) (n : Nat) :
    (∀ m, ((v.resize n).resize m).Reads (sized m (sized n flags))) ↔
      (Edit.resize n).Clears flags := by
  constructor
  · intro hreads i hi hn hnull
    -- the first capacity at which the slot is there again
    have hback : ((v.resize n).resize (i + 1)).get? i = some false := by
      rw [get?_resize_eq_false, get?_resize_eq_false, h.null_iff, getElem?_whole_eq_false]
      exact ⟨Nat.lt_of_lt_of_le (Nat.lt_succ_self i) (le_markCount _), hi, hnull⟩
    have hflag := (hreads (i + 1)).get?_eq i (by rw [length_sized]; exact Nat.lt_succ_self i)
    rw [hback, eq_comm, getElem?_sized_eq_false, getElem?_sized_eq_false] at hflag
    exact Nat.not_lt_of_le hn hflag.2.1
  · intro hclears m
    exact (sized_whole_iff.mpr hclears ▸ h.resize n : (v.resize n).Marked _).reads_resize m

/-- **A mask is a plain list of flags as long as no `NULL` is left behind.**  Take a new mask and do any
operations on slots that it has, where the slots that are given up and stay in the last block are valid.

* All that can be read of it is what the plain list says, also after one more change of the capacity.
* After two more it is so for every second capacity just if the first one leaves no `NULL` behind. -/
theorem run_as_list (n : Nat) {edits : List Edit}
    (hwithin : Edit.Along Edit.Within (List.replicate n true) edits)
    (hclears : Edit.Along Edit.Clears (List.replicate n true) edits) :
    let plain := Edit.runOnFlags id (List.replicate n true) edits
    ∃ v, Edit.run? (new n) edits = some v ∧ v.Reads plain ∧
      ∀ m, (v.resize m).Reads (sized m plain) ∧
        ((∀ k, ((v.resize m).resize k).Reads (sized k (sized m plain))) ↔
          (Edit.resize m).Clears plain) := by
  intro plain
  obtain ⟨v, hrun, hcapacity, hmarked⟩ :=
    (marked_new n).run? (List.length_replicate (n := n) (a := true)).symm hwithin
  rw [← whole_replicate, Edit.runOnFlags_whole hwithin hclears] at hmarked
  refine ⟨v, hrun, ?_, fun m => ⟨hmarked.reads_resize m, hmarked.reads_resize_resize_iff m⟩⟩
  have hreads := hmarked.reads
  rwa [hcapacity, take_whole] at hreads

/-- A mask that gives up a `NULL` with its whole block, and grows again, leaves nothing behind. -/
example :
    let edits : List Edit := [.setNull 65, .resize 64, .resize 66]
    Edit.Along Edit.Within (List.replicate 66 true) edits ∧
      Edit.Along Edit.Clears (List.replicate 66 true) edits :=
  ⟨⟨Nat.lt_of_lt_of_eq (by decide : 65 < 66) List.length_replicate.symm, trivial, trivial, trivial⟩,
    trivial, Edit.clears_resize_of_markCount_eq rfl,
    Edit.clears_resize_of_le (Nat.le_trans (Nat.le_of_eq (length_sized 64 _)) (by decide)), trivial⟩

/-- Within a block the `NULL` is there again. -/
example :
    let edits : List Edit := [.setNull 5, .resize 3, .resize 10]
    (Edit.run? (new 10) edits).bind (·.get? 5) = some false ∧
      (Edit.runOnFlags id (List.replicate 10 true) edits)[5]? = some true := by decide

end Validity

/-! ## Vectors -/

/-- The array of values with another number of slots: a slot that is given up is blank when it is there
again, but a `NULL` stays in the last block. -/
def Cells.resized (t : ColumnType) (c : Cells) (n : Nat) : Cells where
  capacity := n
  value i :=
    if i < n ∧ i < c.capacity then c.value i
    else if i < Validity.markCount n ∧ (c.value i).isNull then .null
    else Scalar.blank t

theorem Cells.value_resized_of_lt (t : ColumnType) {c : Cells} {n i : Nat} (hn : i < n)
    (hi : i < c.capacity) : (c.resized t n).value i = c.value i := if_pos ⟨hn, hi⟩

theorem Cells.value_resized_of_not (t : ColumnType) {c : Cells} {n i : Nat}
    (hi : ¬(i < n ∧ i < c.capacity)) : (c.resized t n).value i =
      if i < Validity.markCount n ∧ (c.value i).isNull then .null else Scalar.blank t := if_neg hi

namespace ValueVector

variable {v : ValueVector} {live : Nat → Prop} {t : ColumnType} {c : Cells} {i n : Nat}

/-- No slot holds `NULL` under its validity. -/
theorem Formed.isNull_of_raw? (h : v.Formed live) {x : Scalar} (hx : v.raw? i = some x) :
    x.isNull = false := by
  cases h with
  | flat sound => exact (sound.2.2.2 x (Array.mem_of_getElem? hx)).2
  | list =>
    rw [raw?_list] at hx
    obtain ⟨w, -, hw⟩ := Option.bind_eq_some_iff.mp hx
    obtain ⟨xs, -, rfl⟩ := Option.map_eq_some_iff.mp hw
    rfl

/-- **The `NULL`s of an array are the marks of its vector,** also past the capacity. -/
theorem Shows.isNull_iff (h : v.Shows t c) (i : Nat) :
    (c.value i).isNull = true ↔ v.validity.get? i = some false := by
  rcases Nat.lt_or_ge i c.capacity with hi | hi
  · obtain ⟨hsound, hcapacity⟩ := h.formed.marks
    obtain ⟨b, hb⟩ := Validity.get?_of_lt hsound (i := i) (by rw [hcapacity, h.capacity_eq]; exact hi)
    have hvalue := h.value_eq i hi
    cases b with
    | false =>
      rw [get?_of_null hb, Option.some.injEq] at hvalue
      exact iff_of_true (hvalue ▸ rfl) hb
    | true =>
      rw [get?_of_valid hb] at hvalue
      refine iff_of_false ?_ (by rw [hb]; simp)
      rw [h.formed.isNull_of_raw? hvalue]
      exact Bool.false_ne_true
  · rw [h.later_eq i hi]
    split
    · rename_i hnull
      exact iff_of_true rfl hnull
    · rename_i hvalid
      exact iff_of_false (by rw [blank_isNull]; exact Bool.false_ne_true) hvalid

/-- **A vector with another number of slots** shows its array with as many. -/
theorem Shows.resized (h : v.Shows t c) (n : Nat) : (v.resize n).Shows t (c.resized t n) where
  formed := (h.formed.resize n).mono fun _ => .inl
  type_eq := (type_resize v n).trans h.type_eq
  capacity_eq := capacity_resize v n
  value_eq i hi := by
    have hn : i < n := hi
    rcases Nat.lt_or_ge i c.capacity with hold | hnew
    · rw [h.formed.get?_resize (h.capacity_eq ▸ hold) hn, h.value_eq i hold,
        Cells.value_resized_of_lt t hn hold]
    · rw [get?_resize_of_le (h.capacity_eq ▸ hnew) hn, h.type_eq,
        Cells.value_resized_of_not t fun hand => absurd hand.2 (Nat.not_lt_of_le hnew)]
      refine congrArg some (if_congr ?_ rfl rfl)
      rw [h.isNull_iff, and_iff_right (Nat.lt_of_lt_of_le hn (Validity.le_markCount n))]
  later_eq i hi := by
    have hn : n ≤ i := hi
    rw [Cells.value_resized_of_not t fun hand => absurd hand.1 (Nat.not_lt_of_le hn),
      validity_resize]
    refine if_congr ?_ rfl rfl
    rw [h.isNull_iff, Validity.get?_resize_eq_false]

/-- An operation on a vector, or another number of slots, more or fewer. -/
inductive Change where
  | edit (e : Edit)
  | resize (n : Nat)

namespace Change

/-- What a change makes of a vector. -/
def onVector (v : ValueVector) : Change → ValueVector
  | .edit e => (e.apply v).2
  | .resize n => v.resize n

/-- What a change makes of an array of values. -/
def onCells (t : ColumnType) (c : Cells) : Change → Cells
  | .edit e => (e.onCells? t c).getD c
  | .resize n => c.resized t n

/-- Whether rows are only added from a vector that can be read. -/
def Reads : Change → Prop
  | .edit e => e.Reads
  | .resize _ => True

end Change

theorem Shows.change (h : v.Shows t c) {e : Change} (he : e.Reads) :
    (e.onVector v).Shows t (e.onCells t c) := by
  cases e with
  | edit e =>
    obtain ⟨v', c', happly, hcells, hshows⟩ | ⟨error, v', happly, hcells, hshows⟩ := h.follows he
    · rw [Change.onVector, Change.onCells, happly, hcells]
      exact hshows
    · rw [Change.onVector, Change.onCells, happly, hcells]
      exact hshows
  | resize n => exact h.resized n

/-- **A vector shows its array** after any operations and any numbers of slots. -/
theorem Shows.changes (h : v.Shows t c) {changes : List Change} (hchanges : ∀ e ∈ changes, e.Reads) :
    (changes.foldl Change.onVector v).Shows t (changes.foldl (Change.onCells t) c) := by
  induction changes generalizing v c with
  | nil => exact h
  | cons e rest ih =>
    exact ih (h.change (hchanges e List.mem_cons_self)) fun e he =>
      hchanges e (List.mem_cons_of_mem _ he)

/-- **A vector of any history of operations and sizes.**  Every slot can be read.  It holds what was
written to it last, or it is blank if it was given up since, but it is `NULL` if it was `NULL` when it
was given up and its mark stayed in the last block each time. -/
theorem run_with_resizes (t : ColumnType) (n : Nat) {changes : List Change}
    (hchanges : ∀ e ∈ changes, e.Reads) :
    let v := changes.foldl Change.onVector (new t n)
    let c := changes.foldl (Change.onCells t) (.blank t n)
    v.type = t ∧ v.capacity = c.capacity ∧ v.Readable ∧
      ∀ i < c.capacity, v.get? i = some (c.value i) := by
  have h := (shows_new t n).changes hchanges
  exact ⟨h.type_eq, h.capacity_eq, h.formed.readable, h.value_eq⟩

/-- Of two slots that were given up and are there again, the one that was `NULL` is not blank. -/
example :
    let v := [.edit (.set 1 (.integer 7)), .edit (.setNull 2), .resize 1, .resize 4].foldl
      Change.onVector (new .integer 3)
    v.get? 1 = some (.integer 0) ∧ v.get? 2 = some .null ∧ v.get? 3 = some (.integer 0) :=
  ⟨rfl, rfl, rfl⟩

end ValueVector
end ColumnStore
