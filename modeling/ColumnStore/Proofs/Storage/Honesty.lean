/-
# What is kept of stored segments

Values that were read from blocks are kept, and are given again later without a look at the blocks.
A reading is honest when what it hands over to be kept is what the blocks hold; then it makes no
difference what is kept (`load_eq`).
-/

import ColumnStore.Proofs.Attempts

namespace ColumnStore

/-- Where values are read when nothing is kept. -/
def Disk.source (d : Disk) : Source := .ofDisk d []

/-- What is kept of the segments that are safe from changes is what the disk holds. -/
def Decoded.Kept (decoded : Decoded) (d : Disk) (safe : StoredValues → Prop) : Prop :=
  ∀ s v, safe s → decoded.lookup s = some v → d.source.load s = .ok v

theorem Decoded.kept_nil (d : Disk) (safe : StoredValues → Prop) : Decoded.Kept [] d safe :=
  fun _ _ _ h => nomatch h

/-- **It makes no difference what is kept.** -/
theorem Decoded.Kept.load_eq {decoded : Decoded} {d : Disk} {safe : StoredValues → Prop}
    (h : decoded.Kept d safe) {s : StoredValues} (hs : safe s) :
    (Source.ofDisk d decoded).load s = d.source.load s := by
  cases hl : decoded.lookup s with
  | some v =>
    rw [h s v hs hl]
    simp only [Source.load, Source.ofDisk, hl]
  | none => simp only [Disk.source, Source.load, Source.ofDisk, hl, List.lookup_nil]

/-- Other bytes in files that are not safe do not matter. -/
theorem Disk.load_congr {d d' : Disk} {s : StoredValues}
    (h : d'.bytes s.blocks.file = d.bytes s.blocks.file) : d'.source.load s = d.source.load s := by
  simp only [Disk.source, Source.load, Source.ofDisk, List.lookup_nil, BlockFile.read, h]

namespace Reading

variable {α β : Type}

instance : LawfulMonad Reading := by
  refine LawfulMonad.mk' Reading (fun x => ?_) (fun a f => ?_) (fun x f g => ?_)
  · obtain ⟨_ | a, decoded⟩ := x
    · rfl
    · exact congrArg (Reading.mk (.ok a)) (List.append_nil decoded)
  · rfl
  · obtain ⟨_ | a, decoded⟩ := x
    · rfl
    · simp only [bind]
      cases (f a).result with
      | error e => rfl
      | ok b => exact congrArg (Reading.mk _) (List.append_assoc ..)

/-- What a reading decodes is what the source holds, in segments that are safe. -/
def Honest (source : Source) (safe : StoredValues → Prop) (x : Reading α) : Prop :=
  ∀ p ∈ x.decoded, safe p.1 ∧ source.load p.1 = .ok p.2

section Honest

variable {source : Source} {safe : StoredValues → Prop}

theorem honest_pure (a : α) : Honest source safe (pure a) := fun _ h => nomatch h

theorem honest_of (r : Except StorageError α) : Honest source safe (of r) := fun _ h => nomatch h

theorem honest_fail (e : StorageError) : Honest source safe (fail e : Reading α) := honest_of _

theorem honest_attempt {x : Reading α} (h : Honest source safe x) :
    Honest source safe x.attempt := h

theorem honest_bind {x : Reading α} {f : α → Reading β} (hx : Honest source safe x)
    (hf : ∀ a, x.result = .ok a → Honest source safe (f a)) : Honest source safe (x >>= f) := by
  intro p hp
  simp only [bind] at hp
  cases hr : x.result with
  | error e =>
    rw [hr] at hp
    exact hx p hp
  | ok a =>
    rw [hr] at hp
    rcases List.mem_append.mp hp with hp | hp
    · exact hx p hp
    · exact hf a hr p hp

theorem honest_load {s : StoredValues} (h : safe s) : Honest source safe (load source s) := by
  intro p hp
  unfold load at hp
  cases hl : source.load s with
  | error e =>
    rw [hl] at hp
    cases hp
  | ok v =>
    rw [hl] at hp
    obtain rfl := List.mem_singleton.mp hp
    exact ⟨h, hl⟩

theorem honest_mapM {xs : List α} {f : α → Reading β}
    (h : ∀ a ∈ xs, Honest source safe (f a)) : Honest source safe (xs.mapM f) := by
  induction xs with
  | nil =>
    rw [List.mapM_nil]
    exact honest_pure _
  | cons a rest ih =>
    rw [List.mapM_cons]
    refine honest_bind (h a List.mem_cons_self) fun b _ => honest_bind (ih fun c hc =>
      h c (List.mem_cons_of_mem _ hc)) fun bs _ => honest_pure _

end Honest

theorem lookup_append {γ : Type} {xs ys : List (StoredValues × γ)} {s : StoredValues} {v : γ}
    (h : (xs ++ ys).lookup s = some v) : (s, v) ∈ xs ∨ ys.lookup s = some v := by
  induction xs with
  | nil => exact Or.inr h
  | cons p rest ih =>
    rw [List.cons_append, List.lookup_cons] at h
    split at h
    · rename_i heq
      obtain rfl := eq_of_beq heq
      obtain rfl := Option.some.inj h
      exact Or.inl List.mem_cons_self
    · exact (ih h).imp_left (List.mem_cons_of_mem _)

/-- **What an honest reading hands over may be kept.** -/
theorem Honest.kept {x : Reading α} {d : Disk} {decoded : Decoded} {safe : StoredValues → Prop}
    (hx : Honest (.ofDisk d decoded) safe x) (h : decoded.Kept d safe) :
    Decoded.Kept (x.decoded ++ decoded) d safe := by
  intro s v hs hl
  rcases lookup_append hl with hm | hl
  · obtain ⟨-, hload⟩ := hx _ hm
    rwa [h.load_eq hs] at hload
  · exact h s v hs hl

end Reading
end ColumnStore
