/-
# Statistics of rows that were split

Statistics of two parts of some rows are merged into those of all of them, to the bit
(`Statistics.merge_ofRows`).  Merging takes the bounds of the second part for values of rows, each of
which widens both bounds.  That comes to the same as joining the parts bound by bound (`combine`, which
is associative): of equal values the first stays the bound, and the two bounds of a part that are equal
are one value, the first of all (`Settled`).
-/

import ColumnStore.Proofs.Segment.Bounds

namespace ColumnStore

/-! ## The value that goes further -/

namespace Scalar

variable {t : ColumnType} {o : Ordering} {a b c : Scalar}

/-- Of two values the one that lies further in a direction, the first of two that are equal. -/
def further (o : Ordering) (a b : Scalar) : Scalar := if b.order? a = some o then b else a

/-- A value of a type that is not `NULL`. -/
def Fills (x : Scalar) (t : ColumnType) : Prop := x.fits t = true ∧ x.isNull = false

theorem Fills.order? (ha : a.Fills t) (hb : b.Fills t) : ∃ o, a.order? b = some o :=
  order?_of_fits a ha.1 hb.1 ha.2 hb.2

/-- What lies beyond a value that lies beyond another lies beyond both. -/
theorem beyond_trans (ho : o ≠ .eq) (h : c.order? b = some o) (h' : b.order? a = some o) :
    c.order? a = some o := by
  cases o with
  | eq => exact absurd rfl ho
  | lt => exact order?_chain c h h' (by decide) (by decide)
  | gt =>
    have hup := order?_chain a (order?_of_swap h') (order?_of_swap h) (by decide) (by decide)
    exact order?_of_swap hup

/-- What lies beyond a value lies beyond any third one, or the third one lies beyond the first. -/
theorem beyond_or (ho : o ≠ .eq) (ha : a.Fills t) (hb : b.Fills t) (h : c.order? a = some o) :
    b.order? a = some o ∨ c.order? b = some o := by
  obtain ⟨p, hp⟩ := ha.order? hb
  by_cases hpo : p = o.swap
  · exact .inl (by rw [order?_of_swap hp, hpo, Ordering.swap_swap])
  · refine .inr ?_
    cases o with
    | eq => exact absurd rfl ho
    | lt => exact order?_chain c h hp (by decide) hpo
    | gt =>
      have hpg : p.swap ≠ .gt := fun hgt => hpo (by rw [← hgt, Ordering.swap_swap])
      have hup := order?_chain b (order?_of_swap hp) (order?_of_swap h) hpg (by decide)
      rw [Ordering.swap, then_lt hpg] at hup
      exact order?_of_swap hup

/-- **The furthest of three values** is found from either end. -/
theorem further_assoc (ho : o ≠ .eq) (ha : a.Fills t) (hb : b.Fills t) (c : Scalar) :
    further o (further o a b) c = further o a (further o b c) := by
  by_cases hab : b.order? a = some o <;> by_cases hbc : c.order? b = some o
  · simp only [further, hab, hbc, if_true, beyond_trans ho hbc hab]
  · simp only [further, hab, hbc, if_true, if_false]
  · simp only [further, hab, hbc, if_true, if_false]
  · have hac : ¬c.order? a = some o := fun h => (beyond_or ho ha hb h).elim hab hbc
    simp only [further, hab, hbc, hac, if_false]

/-- The value that lies furthest in a direction, if there is one on either side. -/
abbrev furthest (o : Ordering) : Option Scalar → Option Scalar → Option Scalar :=
  Option.merge (further o)

theorem furthest_assoc (ho : o ≠ .eq) {x y z : Option Scalar} (hx : ∀ a ∈ x, a.Fills t)
    (hy : ∀ b ∈ y, b.Fills t) :
    furthest o (furthest o x y) z = furthest o x (furthest o y z) := by
  cases x with
  | none => cases y <;> cases z <;> rfl
  | some a =>
    cases y with
    | none => cases z <;> rfl
    | some b =>
      cases z with
      | none => rfl
      | some c => exact congrArg some (further_assoc ho (hx a rfl) (hy b rfl) c)

/-- The furthest value is one of those that it was found among. -/
theorem eq_of_furthest {x : Option Scalar} (h : furthest o x (some b) = some a) :
    a = b ∨ x = some a := by
  cases x with
  | none => exact .inl (Option.some.inj h).symm
  | some c =>
    obtain rfl := Option.some.inj h
    unfold further
    split
    · exact .inl rfl
    · exact .inr rfl

end Scalar

/-! ## Sketches -/

namespace Sketch

variable (s u : Sketch) (v w : Scalar)

theorem insert_insert_self : (s.insert v).insert v = s.insert v := by
  rw [insert, insert, BitVec.or_assoc, BitVec.or_self]

theorem insert_right_comm : (s.insert v).insert w = (s.insert w).insert v := by
  rw [insert, insert, insert, insert, BitVec.or_assoc, BitVec.or_assoc, BitVec.or_comm (1 <<< slot v)]

/-- A value that was counted on either side has been counted in both together. -/
theorem insert_merge : (s.insert v).merge u = s.merge (u.insert v) := by
  rw [insert, insert, merge, merge, BitVec.or_assoc, BitVec.or_comm u.bits]

end Sketch

/-! ## Joining bound by bound -/

namespace Statistics

open Scalar

variable {s u w : Statistics} {t : ColumnType} {v : Scalar} {vs : List Scalar}

/-- Statistics of two parts of some rows, joined bound by bound. -/
def combine (s u : Statistics) : Statistics :=
  { s with
    least := furthest .lt s.least u.least
    greatest := furthest .gt s.greatest u.greatest
    nulls := s.nulls + u.nulls
    rows := s.rows + u.rows
    distinct := s.distinct.merge u.distinct }

theorem combine_assoc (hs : s.Typed t) (hu : u.Typed t) :
    (s.combine u).combine w = s.combine (u.combine w) := by
  rw [combine, combine, combine, combine]
  simp only [Statistics.mk.injEq, true_and]
  refine ⟨furthest_assoc (by decide) hs.least_fits hu.least_fits,
    furthest_assoc (by decide) hs.greatest_fits hu.greatest_fits, Nat.add_assoc .., Nat.add_assoc ..,
    ?_⟩
  rw [Sketch.merge, Sketch.merge, Sketch.merge, Sketch.merge, BitVec.or_assoc]

/-- The statistics of some rows. -/
def ofRows (t : ColumnType) (vs : List Scalar) : Statistics := addAll { type := t } vs

theorem combine_nil (s : Statistics) : s.combine (ofRows t []) = s := by
  obtain ⟨type, least, greatest, nulls, rows, ⟨bits⟩⟩ := s
  cases least <;> cases greatest <;> simp [combine, ofRows, addAll, Sketch.merge]

/-- **Widening** takes each bound a step towards the value. -/
theorem widen_eq (s : Statistics) (v : Scalar) : s.widen v =
    { s with
      least := furthest .lt s.least (some v)
      greatest := furthest .gt s.greatest (some v)
      distinct := s.distinct.insert v } := by
  have hleast : (s.widen v).least = furthest .lt s.least (some v) := by
    rw [widen_least]
    cases s.least with
    | none => rfl
    | some low => exact (apply_ite some _ _ _).symm
  have hgreatest : (s.widen v).greatest = furthest .gt s.greatest (some v) := by
    rw [widen_greatest]
    cases s.greatest with
    | none => rfl
    | some high => exact (apply_ite some _ _ _).symm
  rw [← hleast, ← hgreatest]
  rfl

/-- **One more row** is joined like a part of its own. -/
theorem add_eq_combine (s : Statistics) (t : ColumnType) (v : Scalar) :
    s.add v = s.combine (ofRows t [v]) := by
  have hone : ofRows t [v] = add { type := t } v := rfl
  rw [hone, add, add, combine]
  cases v.isNull with
  | true => simp [Sketch.merge]
  | false => simp [widen_eq, Sketch.merge, Sketch.insert]

/-- The bounds of rows of a type are values of it. -/
theorem typed_ofRows (hv : ∀ v ∈ vs, v.fits t = true) : (ofRows t vs).Typed t :=
  (takenAll_addAll (typed_empty t) hv).1.typed

/-- **Rows that are added** are joined like a part of their own. -/
theorem addAll_eq_combine (hs : s.Typed t) (hv : ∀ v ∈ vs, v.fits t = true) :
    s.addAll vs = s.combine (ofRows t vs) := by
  induction vs generalizing s with
  | nil => exact (combine_nil s).symm
  | cons v rest ih =>
    have hone : ∀ x ∈ [v], x.fits t = true := fun x hx => hv x (by simp_all)
    have hrest : ∀ x ∈ rest, x.fits t = true := fun x hx => hv x (List.mem_cons_of_mem _ hx)
    have htyped : (s.add v).Typed t := (taken_add hs (hv v List.mem_cons_self)).typed
    calc s.addAll (v :: rest)
        = (s.add v).addAll rest := rfl
      _ = (s.combine (ofRows t [v])).combine (ofRows t rest) := by
          rw [ih htyped hrest, add_eq_combine s t]
      _ = s.combine ((ofRows t [v]).combine (ofRows t rest)) :=
          combine_assoc hs (typed_ofRows hone)
      _ = s.combine (ofRows t (v :: rest)) := by
          rw [← ih (typed_ofRows hone) hrest]
          rfl

/-! ## Merging -/

/-- Statistics whose bounds are values that have been counted: the two are one value, or the least is
below the greatest. -/
structure Settled (s : Statistics) (t : ColumnType) : Prop where
  typed : s.Typed t
  apart : ∀ low high, s.least = some low → s.greatest = some high →
    low = high ∨ low.order? high = some .lt
  counted : ∀ v, s.least = some v ∨ s.greatest = some v → s.distinct.insert v = s.distinct

theorem settled_empty (t : ColumnType) : Settled { type := t } t :=
  ⟨typed_empty t, fun _ _ h => (by cases h), fun _ h => (by rcases h with h | h <;> cases h)⟩

/-- **The bounds stay apart** when they are widened: of rows that are all equal the first is both. -/
theorem apart_widen {low high : Scalar} (h : low = high ∨ low.order? high = some .lt) (v : Scalar) :
    further .lt low v = further .gt high v ∨
      (further .lt low v).order? (further .gt high v) = some .lt := by
  unfold further
  by_cases hlow : v.order? low = some .lt
  · -- a value below the least one is below the greatest one too
    have hhigh : v.order? high = some .lt := h.elim (fun heq => heq ▸ hlow) fun hlt =>
      beyond_trans (by decide) hlow hlt
    rw [if_pos hlow, hhigh, if_neg (by decide)]
    exact .inr hhigh
  · rw [if_neg hlow]
    by_cases hhigh : v.order? high = some .gt
    · have hup := order?_of_swap hhigh
      rw [if_pos hhigh]
      exact .inr (h.elim (fun heq => heq ▸ hup) fun hlt => beyond_trans (by decide) hlt hup)
    · rw [if_neg hhigh]
      exact h

theorem Settled.widen (h : s.Settled t) (hv : v.Fills t) : (s.widen v).Settled t := by
  refine ⟨(taken_widen h.typed hv.1 hv.2).typed, fun low high hlow hhigh => ?_, fun w hw => ?_⟩
  · rw [widen_eq] at hlow hhigh
    cases hl : s.least with
    | none =>
      rw [hl] at hlow
      rw [h.typed.none_iff.mp hl] at hhigh
      exact .inl (Option.some.inj (hlow.symm.trans hhigh))
    | some low' =>
      cases hg : s.greatest with
      | none =>
        rw [h.typed.none_iff.mpr hg] at hl
        cases hl
      | some high' =>
        rw [hl] at hlow
        rw [hg] at hhigh
        obtain rfl := Option.some.inj hlow
        obtain rfl := Option.some.inj hhigh
        exact apart_widen (h.apart low' high' hl hg) v
  · have hone : w = v ∨ s.least = some w ∨ s.greatest = some w := by
      rw [widen_eq] at hw
      rcases hw with hw | hw
      · exact (eq_of_furthest hw).imp_right .inl
      · exact (eq_of_furthest hw).imp_right .inr
    rw [widen_eq]
    rcases hone with rfl | hbound
    · exact Sketch.insert_insert_self ..
    · dsimp only
      rw [Sketch.insert_right_comm, h.counted w hbound]

theorem Settled.add (h : s.Settled t) (hv : v.fits t = true) : (s.add v).Settled t := by
  unfold Statistics.add
  cases hn : v.isNull with
  | true => exact ⟨⟨h.typed.least_fits, h.typed.greatest_fits, h.typed.none_iff⟩, h.apart, h.counted⟩
  | false =>
    have hnext : Settled { s with rows := s.rows + 1 } t :=
      ⟨⟨h.typed.least_fits, h.typed.greatest_fits, h.typed.none_iff⟩, h.apart, h.counted⟩
    exact hnext.widen ⟨hv, hn⟩

theorem Settled.addAll (h : s.Settled t) (hv : ∀ v ∈ vs, v.fits t = true) :
    (s.addAll vs).Settled t := by
  induction vs generalizing s with
  | nil => exact h
  | cons v rest ih =>
    exact ih (h.add (hv v List.mem_cons_self)) fun x hx => hv x (List.mem_cons_of_mem _ hx)

/-- Neither bound lies beyond the other in the direction of that one. -/
theorem Settled.further_eq (h : s.Settled t) {low high : Scalar} (hl : s.least = some low)
    (hg : s.greatest = some high) : further .lt low high = low ∧ further .gt low high = high := by
  rw [further, further]
  rcases h.apart low high hl hg with rfl | hlt
  · exact ⟨ite_self _, ite_self _⟩
  · rw [order?_of_swap hlt]
    exact ⟨if_neg (by decide), if_pos rfl⟩

/-- **Bounds that are taken for rows** widen the bounds like the rows that they bound. -/
theorem merge_eq_combine (hs : s.Typed t) (hu : u.Settled t) : s.merge u = s.combine u := by
  rw [merge, combine]
  cases hl : u.least with
  | none =>
    rw [hu.typed.none_iff.mp hl]
    cases hsl : s.least <;> cases hsg : s.greatest <;> simp
  | some low =>
    cases hg : u.greatest with
    | none =>
      rw [hu.typed.none_iff.mpr hg] at hl
      cases hl
    | some high =>
      have hlow : ∀ b ∈ some low, b.Fills t := fun b hb => hu.typed.least_fits b (hl.trans hb)
      obtain ⟨hdown, hup⟩ := hu.further_eq hl hg
      have hleast : furthest .lt (furthest .lt s.least (some low)) (some high) =
          furthest .lt s.least (some low) := by
        rw [furthest_assoc (by decide) hs.least_fits hlow]
        exact congrArg (furthest .lt s.least ∘ some) hdown
      have hgreatest : furthest .gt (furthest .gt s.greatest (some low)) (some high) =
          furthest .gt s.greatest (some high) := by
        rw [furthest_assoc (by decide) hs.greatest_fits hlow]
        exact congrArg (furthest .gt s.greatest ∘ some) hup
      have hdistinct : ((s.distinct.insert low).insert high).merge u.distinct =
          s.distinct.merge u.distinct := by
        rw [Sketch.insert_merge, Sketch.insert_merge, hu.counted high (.inr hg),
          hu.counted low (.inl hl)]
      dsimp only
      rw [widen_eq, widen_eq]
      dsimp only
      rw [hleast, hgreatest, hdistinct]

/-- **Statistics of rows** that are merged into others count like the rows. -/
theorem merge_eq_addAll (hs : s.Typed t) (hv : ∀ v ∈ vs, v.fits t = true) :
    s.merge (ofRows t vs) = s.addAll vs :=
  (merge_eq_combine hs ((settled_empty t).addAll hv)).trans (addAll_eq_combine hs hv).symm

/-- **Statistics of parts** are merged into those of all rows. -/
theorem foldl_merge {parts : List (List Scalar)} (hv : ∀ v ∈ parts.flatten, v.fits t = true)
    (hs : s.Typed t) : (parts.map (ofRows t)).foldl merge s = s.addAll parts.flatten := by
  induction parts generalizing s with
  | nil => rfl
  | cons part rest ih =>
    rw [List.flatten_cons] at hv ⊢
    have hpart : ∀ v ∈ part, v.fits t = true := fun v hm => hv v (List.mem_append_left _ hm)
    have htyped : (s.addAll part).Typed t := (takenAll_addAll hs hpart).1.typed
    rw [List.map_cons, List.foldl_cons, merge_eq_addAll hs hpart,
      ih (fun v hm => hv v (List.mem_append_right _ hm)) htyped, addAll, addAll, addAll,
      List.foldl_append]

/-- **Merging statistics is a homomorphism.**  The statistics of some rows of a type, merged with those
of some more, are exactly those of all of them: both bounds to the bit, the numbers of rows and of
`NULL`s and the sketch.

* Merging is associative.
* It does not matter into which parts the rows are split: their statistics are the same, and so is the
  verdict on every comparison. -/
theorem merge_ofRows {xs ys zs : List Scalar} (hx : ∀ x ∈ xs, x.fits t = true)
    (hy : ∀ y ∈ ys, y.fits t = true) (hz : ∀ z ∈ zs, z.fits t = true) :
    (ofRows t xs).merge (ofRows t ys) = ofRows t (xs ++ ys) ∧
    ((ofRows t xs).merge (ofRows t ys)).merge (ofRows t zs) =
      (ofRows t xs).merge ((ofRows t ys).merge (ofRows t zs)) ∧
    ∀ parts : List (List Scalar), parts.flatten = xs →
      (parts.map (ofRows t)).foldl merge (ofRows t []) = ofRows t xs ∧
      ∀ (op : Comparison) (c : Scalar),
        ((parts.map (ofRows t)).foldl merge (ofRows t [])).check op c = (ofRows t xs).check op c := by
  have hmerge : ∀ {vs ws : List Scalar}, (∀ v ∈ vs, v.fits t = true) → (∀ w ∈ ws, w.fits t = true) →
      (ofRows t vs).merge (ofRows t ws) = ofRows t (vs ++ ws) := fun {vs ws} hv hw => by
    rw [merge_eq_addAll (typed_ofRows hv) hw, ofRows, ofRows, addAll, addAll, addAll, List.foldl_append]
  have happend : ∀ {vs ws : List Scalar}, (∀ v ∈ vs, v.fits t = true) →
      (∀ w ∈ ws, w.fits t = true) → ∀ v ∈ vs ++ ws, v.fits t = true := fun hv hw v hm =>
    (List.mem_append.mp hm).elim (hv v) (hw v)
  refine ⟨hmerge hx hy, ?_, fun parts hparts => ?_⟩
  · rw [hmerge hx hy, hmerge hy hz, hmerge (happend hx hy) hz, hmerge hx (happend hy hz),
      List.append_assoc]
  · have hfold : (parts.map (ofRows t)).foldl merge (ofRows t []) = ofRows t xs := by
      rw [← hparts]
      exact foldl_merge (hparts ▸ hx) (typed_empty t)
    exact ⟨hfold, fun op c => by rw [hfold]⟩

/-- Numbers with both zeros and a NaN, and a part of `NULL`s alone: of the two zeros the first is the
lower bound. -/
theorem merge_ofRows_zeros :
    let xs : List Scalar := [.null, .double 0]
    let ys : List Scalar := [.double 0x8000000000000000, .double 0x7FF8000000000000]
    let zs : List Scalar := [.null]
    let merged := ((ofRows .double zs).merge (ofRows .double xs)).merge (ofRows .double ys)
    merged = ofRows .double (zs ++ xs ++ ys) ∧ merged.least = some (.double 0) ∧
      merged.greatest = some (.double 0x7FF8000000000000) ∧ merged.nulls = 2 ∧ merged.rows = 5 := by
  intro xs ys zs merged
  have hx : ∀ x ∈ xs, x.fits .double = true := by decide
  have hy : ∀ y ∈ ys, y.fits .double = true := by decide
  have hz : ∀ z ∈ zs, z.fits .double = true := by decide
  have hmerged : merged = ofRows .double (zs ++ xs ++ ys) := by
    obtain ⟨-, hassoc, -⟩ := merge_ofRows hz hx hy
    obtain ⟨hinner, -, -⟩ := merge_ofRows hx hy hz
    have hxy : ∀ v ∈ xs ++ ys, v.fits .double = true := by decide
    exact hassoc.trans (by rw [hinner, (merge_ofRows hz hxy hx).1, List.append_assoc])
  rw [hmerged]
  exact ⟨rfl, rfl, rfl, rfl, rfl⟩

end Statistics
end ColumnStore
