/-
# Results of attempts

What it takes for a chain of steps to succeed: every step succeeds, on what the one before gave.
-/

import ColumnStore.Storage.Reading
import Mathlib.Data.List.Forall2
import Mathlib.Tactic.Common

namespace ColumnStore

section Except

variable {ε ε' α β : Type}

@[simp] theorem ok_bind (a : α) (f : α → Except ε β) : (Except.ok a >>= f) = f a := rfl

@[simp] theorem error_bind (e : ε) (f : α → Except ε β) : (Except.error e >>= f) = .error e := rfl

@[simp] theorem pure_ok (a : α) : (pure a : Except ε α) = .ok a := rfl

/-- **A chain succeeds when both parts do.** -/
theorem bind_eq_ok {x : Except ε α} {f : α → Except ε β} {b : β} :
    (x >>= f) = .ok b ↔ ∃ a, x = .ok a ∧ f a = .ok b := by
  cases x <;> simp

@[simp] theorem map_eq_ok {x : Except ε α} {f : α → β} {b : β} :
    x.map f = .ok b ↔ ∃ a, x = .ok a ∧ f a = b := by
  cases x <;> simp [Except.map]

@[simp] theorem mapError_eq_ok {x : Except ε α} {f : ε → ε'} {a : α} :
    x.mapError f = .ok a ↔ x = .ok a := by
  cases x <;> simp [Except.mapError]

@[simp] theorem mapError_ok (a : α) (f : ε → ε') : (Except.ok a).mapError f = .ok a := rfl

@[simp] theorem map_ok (a : α) (f : α → β) : (Except.ok a : Except ε α).map f = .ok (f a) := rfl

theorem eq_ok_of_toOption {ε α : Type} {x : Except ε α} {a : α} (h : x.toOption = some a) :
    x = .ok a := by
  cases x with
  | error e => cases h
  | ok b => exact congrArg _ (Option.some.inj h)

end Except

/-- What a list of optional values is made of. -/
theorem forall₂_of_mapM {α β : Type} {f : α → Option β} {xs : List α} {ys : List β}
    (h : xs.mapM f = some ys) : List.Forall₂ (fun x y => f x = some y) xs ys := by
  induction xs generalizing ys with
  | nil =>
    obtain rfl : [] = ys := by simpa using h
    exact .nil
  | cons x rest ih =>
    rw [List.mapM_cons] at h
    obtain ⟨y, hy, h⟩ := Option.bind_eq_some_iff.mp h
    obtain ⟨more, hmore, h⟩ := Option.bind_eq_some_iff.mp h
    obtain rfl := Option.some.inj h
    exact .cons hy (ih hmore)

/-- A list of optional values that are all there. -/
theorem mapM_of_forall₂ {α β : Type} {f : α → Option β} {xs : List α} {ys : List β}
    (h : List.Forall₂ (fun x y => f x = some y) xs ys) : xs.mapM f = some ys := by
  induction h with
  | nil => rfl
  | cons hx _ ih => rw [List.mapM_cons, hx, ih]; rfl

/-- What a list of results is made of. -/
theorem forall₂_of_mapM_ok {ε α β : Type} {f : α → Except ε β} {xs : List α} {ys : List β}
    (h : xs.mapM f = .ok ys) : List.Forall₂ (fun x y => f x = .ok y) xs ys := by
  induction xs generalizing ys with
  | nil =>
    obtain rfl := Except.ok.inj (List.mapM_nil.symm.trans h)
    exact .nil
  | cons x rest ih =>
    rw [List.mapM_cons] at h
    obtain ⟨y, hy, h⟩ := bind_eq_ok.mp h
    obtain ⟨more, hmore, h⟩ := bind_eq_ok.mp h
    obtain rfl := Except.ok.inj h
    exact .cons hy (ih hmore)

/-- **Results that are all there** make a list of results. -/
theorem exists_mapM_ok {ε α β : Type} {f : α → Except ε β} {xs : List α}
    (h : ∀ x ∈ xs, ∃ y, f x = .ok y) : ∃ ys, xs.mapM f = .ok ys := by
  induction xs with
  | nil => exact ⟨[], List.mapM_nil⟩
  | cons x rest ih =>
    obtain ⟨y, hy⟩ := h x List.mem_cons_self
    obtain ⟨ys, hys⟩ := ih fun a ha => h a (List.mem_cons_of_mem _ ha)
    exact ⟨y :: ys, by rw [List.mapM_cons, hy, ok_bind, hys, ok_bind, pure_ok]⟩

/-- Optional values that are all there make a list of values. -/
theorem exists_mapM_some {α β : Type} {f : α → Option β} {xs : List α}
    (h : ∀ x ∈ xs, ∃ y, f x = some y) : ∃ ys, xs.mapM f = some ys := by
  induction xs with
  | nil => exact ⟨[], List.mapM_nil⟩
  | cons x rest ih =>
    obtain ⟨y, hy⟩ := h x List.mem_cons_self
    obtain ⟨ys, hys⟩ := ih fun a ha => h a (List.mem_cons_of_mem _ ha)
    exact ⟨y :: ys, by rw [List.mapM_cons, hy, hys]; rfl⟩

/-- Optional values that are all there, with what is known of each. -/
theorem exists_mapM_forall₂ {α β : Type} {f : α → Option β} {R : α → β → Prop} {xs : List α}
    (h : ∀ x ∈ xs, ∃ y, f x = some y ∧ R x y) :
    ∃ ys, xs.mapM f = some ys ∧ List.Forall₂ (fun x y => f x = some y ∧ R x y) xs ys := by
  induction xs with
  | nil => exact ⟨[], rfl, .nil⟩
  | cons x rest ih =>
    obtain ⟨y, hy, hR⟩ := h x List.mem_cons_self
    obtain ⟨ys, hys, hall⟩ := ih fun a ha => h a (List.mem_cons_of_mem _ ha)
    exact ⟨y :: ys, by rw [List.mapM_cons, hy, hys]; rfl, .cons ⟨hy, hR⟩ hall⟩

/-- A list of optional values that are all there. -/
theorem mapM_eq_map {α β : Type} {f : α → Option β} {g : α → β} {xs : List α}
    (h : ∀ x ∈ xs, f x = some (g x)) : xs.mapM f = some (xs.map g) := by
  induction xs with
  | nil => rfl
  | cons x rest ih =>
    rw [List.mapM_cons, h x List.mem_cons_self, ih fun y hy => h y (List.mem_cons_of_mem _ hy)]
    rfl

theorem mapM_congr {α β : Type} {f g : α → Option β} {xs : List α} (h : ∀ x ∈ xs, f x = g x) :
    xs.mapM f = xs.mapM g := by
  induction xs with
  | nil => rfl
  | cons x rest ih =>
    rw [List.mapM_cons, List.mapM_cons, h x List.mem_cons_self,
      ih fun y hy => h y (List.mem_cons_of_mem _ hy)]

/-- A list of attempts that all succeed. -/
theorem mapM_eq_ok {ε α β : Type} {f : α → Except ε β} {g : α → β} {xs : List α}
    (h : ∀ x ∈ xs, f x = .ok (g x)) : xs.mapM f = .ok (xs.map g) := by
  induction xs with
  | nil => rfl
  | cons x rest ih =>
    rw [List.mapM_cons, h x List.mem_cons_self, ih fun y hy => h y (List.mem_cons_of_mem _ hy)]
    rfl

/-- Lists that are related are related place by place. -/
theorem forall₂_iff_getElem? {α β : Type} {R : α → β → Prop} {xs : List α} {ys : List β} :
    List.Forall₂ R xs ys ↔ xs.length = ys.length ∧
      ∀ (i : Nat) (x : α) (y : β), xs[i]? = some x → ys[i]? = some y → R x y := by
  rw [List.forall₂_iff_get]
  refine and_congr_right fun hlen => ⟨fun h i x y hx hy => ?_, fun h i hi hi' => ?_⟩
  · obtain ⟨hi, rfl⟩ := List.getElem?_eq_some_iff.mp hx
    obtain ⟨hi', rfl⟩ := List.getElem?_eq_some_iff.mp hy
    exact h i hi hi'
  · exact h i _ _ (List.getElem?_eq_getElem hi) (List.getElem?_eq_getElem hi')

/-- A list of partners. -/
theorem exists_forall₂ {α β : Type} {R : α → β → Prop} {xs : List α} (h : ∀ x ∈ xs, ∃ y, R x y) :
    ∃ ys, List.Forall₂ R xs ys := by
  induction xs with
  | nil => exact ⟨[], .nil⟩
  | cons x rest ih =>
    obtain ⟨⟨y, hy⟩, hrest⟩ := List.forall_mem_cons.mp h
    obtain ⟨ys, hys⟩ := ih hrest
    exact ⟨y :: ys, .cons hy hys⟩

/-- What is in the first of two related lists has a partner. -/
theorem exists_right_of_forall₂ {α β : Type} {R : α → β → Prop} {xs : List α} {ys : List β}
    (h : List.Forall₂ R xs ys) {i : Nat} {x : α} (hx : xs[i]? = some x) :
    ∃ y, ys[i]? = some y ∧ R x y := by
  obtain ⟨hlen, hall⟩ := forall₂_iff_getElem?.mp h
  have hi : i < ys.length := hlen ▸ (List.getElem?_eq_some_iff.mp hx).1
  exact ⟨_, List.getElem?_eq_getElem hi, hall i x _ hx (List.getElem?_eq_getElem hi)⟩

/-- What is in the second of two related lists has a partner. -/
theorem exists_left_of_forall₂ {α β : Type} {R : α → β → Prop} {xs : List α} {ys : List β}
    (h : List.Forall₂ R xs ys) {i : Nat} {y : β} (hy : ys[i]? = some y) :
    ∃ x, xs[i]? = some x ∧ R x y := exists_right_of_forall₂ h.flip hy

/-- A member of the first of two related lists has a partner. -/
theorem exists_mem_right_of_forall₂ {α β : Type} {R : α → β → Prop} {xs : List α} {ys : List β}
    (h : List.Forall₂ R xs ys) {x : α} (hx : x ∈ xs) : ∃ y ∈ ys, R x y := by
  obtain ⟨i, hi⟩ := List.mem_iff_getElem?.mp hx
  obtain ⟨y, hy, hR⟩ := exists_right_of_forall₂ h hi
  exact ⟨y, List.mem_of_getElem? hy, hR⟩

/-- A member of the second of two related lists has a partner. -/
theorem exists_mem_left_of_forall₂ {α β : Type} {R : α → β → Prop} {xs : List α} {ys : List β}
    (h : List.Forall₂ R xs ys) {y : β} (hy : y ∈ ys) : ∃ x ∈ xs, R x y :=
  exists_mem_right_of_forall₂ h.flip hy

/-- Related lists have the same values if what is related has. -/
theorem map_eq_of_forall₂ {α β γ : Type} {f : α → γ} {g : β → γ} {xs : List α} {ys : List β}
    (h : List.Forall₂ (fun x y => f x = g y) xs ys) : xs.map f = ys.map g := by
  induction h with
  | nil => rfl
  | cons hx _ ih => rw [List.map_cons, List.map_cons, hx, ih]

section Zip

variable {ε α β γ : Type} {f : (α × β) × Nat → Except ε γ} {xs : List α} {ys : List β}

/-- What a list of results for pairs with their numbers is made of. -/
theorem getElem?_of_zip_mapM (hlen : xs.length = ys.length) {zs : List γ}
    (h : (xs.zip ys).zipIdx.mapM f = .ok zs) : zs.length = xs.length ∧
      ∀ (i : Nat) (x : α) (y : β), xs[i]? = some x → ys[i]? = some y →
        ∃ z, zs[i]? = some z ∧ f ((x, y), i) = .ok z := by
  have hall := forall₂_of_mapM_ok h
  have hcount := hall.length_eq
  rw [List.length_zipIdx, List.length_zip, ← hlen, Nat.min_self] at hcount
  refine ⟨hcount.symm, fun i x y hx hy => exists_right_of_forall₂ hall ?_⟩
  rw [List.getElem?_zipIdx, List.getElem?_zip_eq_some (z := (x, y)) |>.mpr ⟨hx, hy⟩,
    Option.map_some, Nat.zero_add]

/-- Results for all pairs with their numbers make a list of results. -/
theorem exists_zip_mapM_ok (h : ∀ (i : Nat) (x : α) (y : β), xs[i]? = some x → ys[i]? = some y →
    ∃ z, f ((x, y), i) = .ok z) : ∃ zs, (xs.zip ys).zipIdx.mapM f = .ok zs := by
  refine exists_mapM_ok fun p hp => ?_
  obtain ⟨⟨x, y⟩, i⟩ := p
  obtain ⟨hx, hy⟩ := List.getElem?_zip_eq_some.mp (List.mk_mem_zipIdx_iff_getElem?.mp hp)
  exact h i x y hx hy

end Zip

@[simp] theorem Reading.result_attempt {α : Type} (x : Reading α) :
    x.attempt.result = .ok x.result := rfl

@[simp] theorem Reading.result_fail {α : Type} (e : StorageError) :
    (Reading.fail e : Reading α).result = .error e := rfl

namespace Attempt

variable {ε ε' σ α β : Type}

@[simp] theorem andThen_ok (a : α) (s : σ) (next : α → σ → Attempt ε σ β) :
    andThen (.ok a, s) next = next a s := rfl

@[simp] theorem andThen_error (e : ε) (s : σ) (next : α → σ → Attempt ε σ β) :
    andThen (.error e, s) next = (.error e, s) := rfl

/-- **Two attempts in a row succeed when both do.** -/
theorem andThen_eq_ok {r : Attempt ε σ α} {next : α → σ → Attempt ε σ β} {b : β} {s : σ} :
    andThen r next = (.ok b, s) ↔ ∃ a s', r = (.ok a, s') ∧ next a s' = (.ok b, s) := by
  obtain ⟨_ | _, _⟩ := r <;> simp [andThen]

/-- **What is kept of a success** is its state. -/
theorem ofExcept_eq_ok {s s' : σ} {x : Except ε (α × σ)} {a : α} :
    ofExcept s x = (.ok a, s') ↔ x = .ok (a, s') := by
  cases x <;> simp [ofExcept, Prod.ext_iff]

@[simp] theorem mapError_eq_ok {r : Attempt ε σ α} {f : ε → ε'} {a : α} {s : σ} :
    r.mapError f = (.ok a, s) ↔ r = (.ok a, s) := by
  obtain ⟨_ | _, _⟩ := r <;> simp [mapError, Except.mapError]

end Attempt
end ColumnStore
