/-
# Laws of the order of values

Every value is the same as itself, NaNs and `NULL` included (`same_self`).  Values of one type that are
not `NULL` can always be compared (`order?_of_fits`).  To exchange them turns the order around
(`order?_swap`), and two comparisons in a row, neither of which goes down, give that of their ends
(`order?_chain`).  Lists are no exception, whatever is in them.
-/

import ColumnStore.Value.Order
import Mathlib.Order.Compare

namespace ColumnStore

/-! ## Every value is the same as itself -/

theorem Bytes.order_self (b : Bytes) : Bytes.order b b = .eq := by
  induction b with
  | nil => rfl
  | cons x rest ih => simp [Bytes.order, ih]

namespace Scalar

mutual

/-- **A value that is not `NULL` is equal to itself in the order.** -/
theorem order?_self : ∀ {x : Scalar}, x ≠ .null → x.order? x = some .eq
  | .null, h => absurd rfl h
  | .boolean a, _ => by simp [order?]
  | .tinyInt a, _ => by simp [order?]
  | .smallInt a, _ => by simp [order?]
  | .integer a, _ => by simp [order?]
  | .bigInt a, _ => by simp [order?]
  | .uBigInt a, _ => by simp [order?]
  | .real a, _ => by simp [order?, Ieee.Format.order]
  | .double a, _ => by simp [order?, Ieee.Format.order]
  | .varchar a, _ => by simp [order?, Bytes.order_self]
  | .list a, _ => by simp [order?, itemsOrder?_self a]

theorem itemsOrder?_self : ∀ xs : List Scalar, itemsOrder? xs xs = some .eq
  | [] => by simp [itemsOrder?]
  | x :: rest => by
    have hrest := itemsOrder?_self rest
    by_cases h : x = .null
    · subst h
      simp [itemsOrder?, hrest]
    · have hx := order?_self h
      cases x <;> simp_all [itemsOrder?]

end

/-- **A value is the same as itself.** -/
theorem same_self (x : Scalar) : x.same x = true := by
  by_cases h : x = .null
  · subst h
    rfl
  · have := order?_self h
    cases x <;> simp_all [same]

end Scalar

/-! ## Comparisons in a row -/

theorem compare_chain {α : Type} [Ord α] [Std.TransOrd α] {a b c : α}
    (h : compare a b ≠ .gt) (h' : compare b c ≠ .gt) :
    compare a c = (compare a b).then (compare b c) := by
  cases hab : compare a b with
  | gt => exact absurd hab h
  | eq => exact Std.TransCmp.congr_left hab
  | lt =>
    cases hbc : compare b c with
    | gt => exact absurd hbc h'
    | eq => exact Std.TransCmp.lt_of_lt_of_eq hab hbc
    | lt => exact Std.TransCmp.lt_trans hab hbc

theorem then_lt {o : Ordering} (h : o ≠ .gt) : o.then .lt = .lt := by
  cases o with
  | gt => exact absurd rfl h
  | _ => rfl

theorem compare_natCast (m n : Nat) : compare (m : Int) (n : Int) = compare m n := by
  rw [Int.compare_eq_ite_lt, Nat.compare_eq_ite_lt]
  simp only [Int.ofNat_lt]

namespace Scalar

/-! ## Values that are no lists -/

/-- The kind of a value that is neither `NULL` nor a list, and a list of numbers that stands for it in
the order of its kind. -/
def key? : Scalar → Option (Nat × List Int)
  | .boolean b => some (1, [b.toNat])
  | .tinyInt v => some (2, [v.toInt])
  | .smallInt v => some (3, [v.toInt])
  | .integer v => some (4, [v.toInt])
  | .bigInt v => some (5, [v.toInt])
  | .uBigInt v => some (6, [v.toNat])
  | .real bits => some (7, [Ieee.Format.single.key bits.toNat])
  | .double bits => some (8, [Ieee.Format.double.key bits.toNat])
  | .varchar s => some (9, (Bytes.ofString s).map fun b => b.toNat)
  | .null | .list _ => none

/-- Byte strings are compared as lists of numbers. -/
theorem bytesOrder_eq (a b : Bytes) :
    Bytes.order a b = compare (a.map fun x => (x.toNat : Int)) (b.map fun x => (x.toNat : Int)) := by
  induction a generalizing b with
  | nil => cases b <;> rfl
  | cons x rest ih =>
    cases b with
    | nil => rfl
    | cons y more =>
      rw [Bytes.order, ih, List.map_cons, List.map_cons, List.compare_cons_cons, compare_natCast]

/-- The order of two keys of one kind. -/
def keyOrder? (p q : Nat × List Int) : Option Ordering :=
  if p.1 = q.1 then some (compare p.2 q.2) else none

/-- **Values that are no lists are compared by their keys.** -/
theorem order?_eq_keys {x : Scalar} (hx : ∀ items, x ≠ .list items) (y : Scalar) :
    x.order? y = x.key?.bind fun p => y.key?.bind (keyOrder? p) := by
  cases x with
  | list items => exact absurd rfl (hx items)
  | boolean a =>
    cases y with
    | boolean b => cases a <;> cases b <;> rfl
    | _ => rfl
  | null => cases y <;> rfl
  | uBigInt a =>
    cases y with
    | uBigInt b => simp [order?, key?, keyOrder?, compare_natCast]
    | _ => rfl
  | varchar a =>
    cases y with
    | varchar b => simp [order?, key?, keyOrder?, bytesOrder_eq]
    | _ => rfl
  | _ =>
    cases y <;> first
      | rfl
      | simp [order?, key?, keyOrder?, Ieee.Format.order]

theorem keyOrder?_swap (p q : Nat × List Int) :
    keyOrder? q p = (keyOrder? p q).map Ordering.swap := by
  unfold keyOrder?
  by_cases h : p.1 = q.1
  · rw [if_pos h, if_pos h.symm, Option.map_some, ← Std.OrientedOrd.eq_swap]
  · rw [if_neg h, if_neg (Ne.symm h), Option.map_none]

theorem keyOrder?_chain {p q r : Nat × List Int} {o o' : Ordering} (h : keyOrder? p q = some o)
    (h' : keyOrder? q r = some o') (ho : o ≠ .gt) (ho' : o' ≠ .gt) :
    keyOrder? p r = some (o.then o') := by
  unfold keyOrder? at h h' ⊢
  split at h
  · rename_i hpq
    split at h'
    · rename_i hqr
      obtain rfl := Option.some.inj h
      obtain rfl := Option.some.inj h'
      rw [if_pos (hpq.trans hqr), compare_chain ho ho']
    · cases h'
  · cases h

/-! ## Items of lists -/

/-- The order of two items, `NULL` after every value. -/
def itemOrder? (x y : Scalar) : Option Ordering :=
  match x.isNull, y.isNull with
  | true, true => some .eq
  | true, false => some .gt
  | false, true => some .lt
  | false, false => x.order? y

/-- **Lists are compared by the first items that differ.** -/
theorem itemsOrder?_cons (x y : Scalar) (xs ys : List Scalar) :
    itemsOrder? (x :: xs) (y :: ys) =
      match itemOrder? x y with
      | some .eq => itemsOrder? xs ys
      | other => other := by
  cases x <;> cases y <;> rfl

theorem itemOrder?_swap {x y : Scalar} (h : y.order? x = (x.order? y).map Ordering.swap) :
    itemOrder? y x = (itemOrder? x y).map Ordering.swap := by
  unfold itemOrder?
  cases x.isNull <;> cases y.isNull <;> first | exact h | rfl

theorem itemOrder?_chain {x y z : Scalar} {o o' : Ordering}
    (hchain : ∀ {p q : Ordering}, x.order? y = some p → y.order? z = some q → p ≠ .gt → q ≠ .gt →
      x.order? z = some (p.then q))
    (h : itemOrder? x y = some o) (h' : itemOrder? y z = some o') (ho : o ≠ .gt) (ho' : o' ≠ .gt) :
    itemOrder? x z = some (o.then o') := by
  unfold itemOrder? at h h' ⊢
  cases hx : x.isNull <;> cases hy : y.isNull <;> cases hz : z.isNull <;>
    simp only [hx, hy, hz, Option.some.injEq] at h h' ⊢
  · exact hchain h h' ho ho'
  · subst h'
    exact (then_lt ho).symm
  · exact absurd h'.symm ho'
  · subst h h'
    rfl
  · exact absurd h.symm ho
  · exact absurd h.symm ho
  · exact absurd h'.symm ho'
  · subst h h'
    rfl

/-! ## Laws -/

theorem order?_list {x : Scalar} (hx : ∀ items, x ≠ .list items) (ys : List Scalar) :
    x.order? (.list ys) = none ∧ order? (.list ys) x = none := by
  cases x with
  | list items => exact absurd rfl (hx items)
  | _ => exact ⟨rfl, rfl⟩

theorem order?_swap_of_key {x : Scalar} (hx : ∀ items, x ≠ .list items) (y : Scalar) :
    y.order? x = (x.order? y).map Ordering.swap := by
  by_cases hy : ∃ ys, y = .list ys
  · obtain ⟨ys, rfl⟩ := hy
    rw [(order?_list hx ys).1, (order?_list hx ys).2, Option.map_none]
  · rw [order?_eq_keys hx, order?_eq_keys fun ys h => hy ⟨ys, h⟩]
    cases x.key? <;> cases y.key? <;> first | rfl | exact keyOrder?_swap _ _

theorem order?_chain_of_key {x y z : Scalar} (hx : ∀ items, x ≠ .list items) {o o' : Ordering}
    (h : x.order? y = some o) (h' : y.order? z = some o') (ho : o ≠ .gt) (ho' : o' ≠ .gt) :
    x.order? z = some (o.then o') := by
  have hy : ∀ ys, y ≠ .list ys := by
    rintro ys rfl
    rw [(order?_list hx ys).1] at h
    cases h
  rw [order?_eq_keys hx] at h ⊢
  rw [order?_eq_keys hy] at h'
  obtain ⟨p, hp, h⟩ := Option.bind_eq_some_iff.mp h
  obtain ⟨q, hq, h⟩ := Option.bind_eq_some_iff.mp h
  obtain ⟨q', hq', h'⟩ := Option.bind_eq_some_iff.mp h'
  obtain ⟨r, hr, h'⟩ := Option.bind_eq_some_iff.mp h'
  obtain rfl := Option.some.inj (hq.symm.trans hq')
  rw [hp, hr]
  exact keyOrder?_chain h h' ho ho'

mutual

/-- **To exchange two values turns their order around.** -/
theorem order?_swap (x y : Scalar) : y.order? x = (x.order? y).map Ordering.swap := by
  cases x with
  | list xs =>
    cases y with
    | list ys => exact itemsOrder?_swap xs ys
    | _ => rfl
  | _ => exact order?_swap_of_key (by simp) y

theorem itemsOrder?_swap : ∀ xs ys : List Scalar,
    itemsOrder? ys xs = (itemsOrder? xs ys).map Ordering.swap
  | [], [] => rfl
  | [], _ :: _ => rfl
  | _ :: _, [] => rfl
  | x :: xs, y :: ys => by
    rw [itemsOrder?_cons, itemsOrder?_cons, itemOrder?_swap (order?_swap x y)]
    cases itemOrder? x y with
    | none => rfl
    | some o =>
      cases o with
      | eq => exact itemsOrder?_swap xs ys
      | _ => rfl

end

mutual

/-- **Two comparisons in a row,** neither of which goes down, give that of their ends. -/
theorem order?_chain (x : Scalar) {y z : Scalar} {o o' : Ordering} (h : x.order? y = some o)
    (h' : y.order? z = some o') (ho : o ≠ .gt) (ho' : o' ≠ .gt) :
    x.order? z = some (o.then o') := by
  cases x with
  | list xs =>
    cases y with
    | list ys =>
      cases z with
      | list zs => exact itemsOrder?_chain xs h h' ho ho'
      | _ => cases h'
    | _ => cases h
  | _ => exact order?_chain_of_key (by simp) h h' ho ho'

theorem itemsOrder?_chain (xs : List Scalar) {ys zs : List Scalar} {o o' : Ordering}
    (h : itemsOrder? xs ys = some o) (h' : itemsOrder? ys zs = some o') (ho : o ≠ .gt)
    (ho' : o' ≠ .gt) : itemsOrder? xs zs = some (o.then o') := by
  match xs, ys, zs with
  | [], [], _ =>
    obtain rfl := Option.some.inj h
    exact h'
  | [], _ :: _, [] => exact absurd (Option.some.inj h').symm ho'
  | [], _ :: _, _ :: _ =>
    obtain rfl := Option.some.inj h
    rfl
  | _ :: _, [], _ => exact absurd (Option.some.inj h).symm ho
  | _ :: _, _ :: _, [] => exact absurd (Option.some.inj h').symm ho'
  | x :: xs, y :: ys, z :: zs =>
    rw [itemsOrder?_cons] at h h' ⊢
    cases hxy : itemOrder? x y with
    | none =>
      rw [hxy] at h
      cases h
    | some p =>
      cases hyz : itemOrder? y z with
      | none =>
        rw [hyz] at h'
        cases h'
      | some q =>
        rw [hxy] at h
        rw [hyz] at h'
        have hchain := fun hp hq =>
          itemOrder?_chain (fun h h' ho ho' => order?_chain x h h' ho ho') hxy hyz hp hq
        cases p with
        | gt => exact absurd (Option.some.inj h).symm ho
        | eq =>
          cases q with
          | gt => exact absurd (Option.some.inj h').symm ho'
          | eq =>
            rw [hchain nofun nofun]
            exact itemsOrder?_chain xs h h' ho ho'
          | lt =>
            rw [hchain nofun nofun]
            obtain rfl := Option.some.inj h'
            exact congrArg some (then_lt ho).symm
        | lt =>
          obtain rfl := Option.some.inj h
          cases q with
          | gt => exact absurd (Option.some.inj h').symm ho'
          | eq => rw [hchain nofun nofun]; rfl
          | lt => rw [hchain nofun nofun]; rfl

end

mutual

/-- **Values of one type can be compared,** unless one is `NULL`. -/
theorem order?_of_fits (x : Scalar) {y : Scalar} {t : ColumnType} (hx : x.fits t = true)
    (hy : y.fits t = true) (hxn : x.isNull = false) (hyn : y.isNull = false) :
    ∃ o, x.order? y = some o := by
  cases x with
  | null => cases hxn
  | list xs =>
    cases t with
    | list item =>
      cases y with
      | null => cases hyn
      | list ys => exact itemsOrder?_of_fits xs hx hy
      | _ => cases hy
    | _ => cases hx
  | _ =>
    cases t <;> first
      | (cases hx; done)
      | (cases y <;> first
          | (cases hyn; done)
          | (cases hy; done)
          | exact ⟨_, rfl⟩)

theorem itemsOrder?_of_fits (xs : List Scalar) {ys : List Scalar} {t : ColumnType}
    (hx : allFit xs t = true) (hy : allFit ys t = true) : ∃ o, itemsOrder? xs ys = some o := by
  match xs, ys with
  | [], [] => exact ⟨_, rfl⟩
  | [], _ :: _ => exact ⟨_, rfl⟩
  | _ :: _, [] => exact ⟨_, rfl⟩
  | x :: xs, y :: ys =>
    rw [allFit, Bool.and_eq_true] at hx hy
    rw [itemsOrder?_cons]
    have hitem : ∃ o, itemOrder? x y = some o := by
      unfold itemOrder?
      cases hxn : x.isNull <;> cases hyn : y.isNull
      · exact order?_of_fits x hx.1 hy.1 hxn hyn
      all_goals exact ⟨_, rfl⟩
    obtain ⟨o, ho⟩ := hitem
    rw [ho]
    cases o with
    | eq => exact itemsOrder?_of_fits xs hx.2 hy.2
    | _ => exact ⟨_, rfl⟩

end

end Scalar
end ColumnStore
