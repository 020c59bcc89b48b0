/-
# What the bounds of a segment say

Statistics admit a value if it is `NULL` and they count a `NULL`, or if it lies between their bounds
(`Statistics.Admits`).  What they have taken into account they admit, and go on admitting whatever
comes later (`Taken.widen`).  A verdict on a comparison is right for every value that is admitted
(`check_sound`).
-/

import ColumnStore.Proofs.Value.Sameness
import ColumnStore.Segment.Statistics

namespace ColumnStore

/-! ## Values that are not greater -/

namespace Scalar

/-- A value is not greater than another one that it can be compared with. -/
def AtMost (x y : Scalar) : Prop := ∃ o, x.order? y = some o ∧ o ≠ .gt

theorem AtMost.refl {x : Scalar} (h : x.isNull = false) : x.AtMost x :=
  ⟨.eq, order?_self (by rintro rfl; cases h), by decide⟩

theorem AtMost.trans {x y z : Scalar} (h : x.AtMost y) (h' : y.AtMost z) : x.AtMost z := by
  obtain ⟨o, ho, hle⟩ := h
  obtain ⟨o', ho', hle'⟩ := h'
  refine ⟨o.then o', order?_chain x ho ho' hle hle', ?_⟩
  cases o with
  | gt => exact absurd rfl hle
  | eq => exact hle'
  | lt => exact (by decide : Ordering.lt ≠ .gt)

/-- The order read from the other side. -/
theorem order?_of_swap {x y : Scalar} {o : Ordering} (h : x.order? y = some o) :
    y.order? x = some o.swap := by
  rw [order?_swap x y, h, Option.map_some]

/-- **Of two values of a type, one is not greater than the other.** -/
theorem atMost_of_order? {x y : Scalar} {o : Ordering} (h : x.order? y = some o) :
    (o ≠ .gt → x.AtMost y) ∧ (o ≠ .lt → y.AtMost x) := by
  refine ⟨fun ho => ⟨o, h, ho⟩, fun ho => ⟨o.swap, order?_of_swap h, ?_⟩⟩
  cases o with
  | lt => exact absurd rfl ho
  | _ => decide

end Scalar

/-! ## Comparisons with a constant -/

/-- Whether `x op y` holds. -/
def Comparison.holds (op : Comparison) (x y : Scalar) : Bool :=
  if x.isNull || y.isNull then op.onNulls x.isNull y.isNull else (x.order? y).any op.onOrder

namespace Statistics

variable {s : Statistics} {t : ColumnType} {v x c : Scalar}

/-- A value lies between the bounds. -/
def Spans (s : Statistics) (x : Scalar) : Prop :=
  ∃ low high, s.least = some low ∧ s.greatest = some high ∧ low.AtMost x ∧ x.AtMost high

/-- A value is `NULL` and there may be one, or lies between the bounds. -/
def Admits (s : Statistics) (x : Scalar) : Prop := if x.isNull then s.hasNulls = true else s.Spans x

/-- **A value that is the same** as one that is admitted is admitted. -/
theorem Admits.same {y : Scalar} (h : s.Admits x) (hsame : y.same x = true) : s.Admits y := by
  have hnull := Scalar.isNull_of_same hsame
  unfold Admits at h ⊢
  cases hn : y.isNull with
  | true =>
    rw [← hnull, hn, if_pos rfl] at h
    rwa [if_pos rfl]
  | false =>
    rw [← hnull, hn, if_neg Bool.false_ne_true] at h
    rw [if_neg Bool.false_ne_true]
    obtain ⟨low, high, hlow, hhigh, hlx, hxh⟩ := h
    have horder := (Scalar.same_iff hn).mp hsame
    exact ⟨low, high, hlow, hhigh, hlx.trans ⟨.eq, Scalar.order?_of_swap horder, by decide⟩,
      .trans ⟨.eq, horder, by decide⟩ hxh⟩

/-- Both bounds are values of a type, or there is none. -/
structure Typed (s : Statistics) (t : ColumnType) : Prop where
  least_fits : ∀ low, s.least = some low → low.fits t = true ∧ low.isNull = false
  greatest_fits : ∀ high, s.greatest = some high → high.fits t = true ∧ high.isNull = false
  none_iff : s.least = none ↔ s.greatest = none

theorem typed_empty (t : ColumnType) : Typed { type := t } t :=
  ⟨nofun, nofun, Iff.rfl⟩

/-! ## Taking values into account -/

/-- Statistics that have taken a value into account: they admit it, and all that they admitted
before. -/
structure Taken (s s' : Statistics) (t : ColumnType) (v : Scalar) : Prop where
  typed : s'.Typed t
  admits : s'.Admits v
  admits_old : ∀ x, s.Admits x → s'.Admits x
  least_none : s'.least = none ↔ s.least = none ∧ v.isNull = true

theorem widen_least (s : Statistics) (v : Scalar) :
    (s.widen v).least = match s.least with
      | some low => if v.order? low = some .lt then some v else some low
      | none => some v := rfl

theorem widen_greatest (s : Statistics) (v : Scalar) :
    (s.widen v).greatest = match s.greatest with
      | some high => if v.order? high = some .gt then some v else some high
      | none => some v := rfl

/-- The lower bound after widening is not above the value, nor above the bound before. -/
theorem widen_low (h : s.Typed t) (hv : v.fits t = true) (hn : v.isNull = false) :
    ∃ low, (s.widen v).least = some low ∧ low.fits t = true ∧ low.isNull = false ∧ low.AtMost v ∧
      ∀ before, s.least = some before → low.AtMost before := by
  rw [widen_least]
  cases hl : s.least with
  | none => exact ⟨v, rfl, hv, hn, .refl hn, by simp⟩
  | some before =>
    obtain ⟨hfits, hnull⟩ := h.least_fits before hl
    obtain ⟨o, ho⟩ := Scalar.order?_of_fits v hv hfits hn hnull
    obtain ⟨hup, hdown⟩ := Scalar.atMost_of_order? ho
    dsimp only
    rw [ho]
    split
    · rename_i hlt
      refine ⟨v, rfl, hv, hn, .refl hn, fun b hb => ?_⟩
      obtain rfl := Option.some.inj hb
      exact hup (by rw [Option.some.inj hlt]; decide)
    · rename_i hlt
      refine ⟨before, rfl, hfits, hnull, hdown fun he => hlt (congrArg some he), fun b hb => ?_⟩
      obtain rfl := Option.some.inj hb
      exact .refl hnull

/-- The upper bound after widening is not below the value, nor below the bound before. -/
theorem widen_high (h : s.Typed t) (hv : v.fits t = true) (hn : v.isNull = false) :
    ∃ high, (s.widen v).greatest = some high ∧ high.fits t = true ∧ high.isNull = false ∧
      v.AtMost high ∧ ∀ before, s.greatest = some before → before.AtMost high := by
  rw [widen_greatest]
  cases hg : s.greatest with
  | none => exact ⟨v, rfl, hv, hn, .refl hn, by simp⟩
  | some before =>
    obtain ⟨hfits, hnull⟩ := h.greatest_fits before hg
    obtain ⟨o, ho⟩ := Scalar.order?_of_fits v hv hfits hn hnull
    obtain ⟨hup, hdown⟩ := Scalar.atMost_of_order? ho
    dsimp only
    rw [ho]
    split
    · rename_i hgt
      refine ⟨v, rfl, hv, hn, .refl hn, fun b hb => ?_⟩
      obtain rfl := Option.some.inj hb
      exact hdown (by rw [Option.some.inj hgt]; decide)
    · rename_i hgt
      refine ⟨before, rfl, hfits, hnull, hup fun he => hgt (congrArg some he), fun b hb => ?_⟩
      obtain rfl := Option.some.inj hb
      exact .refl hnull

/-- **Widened bounds span the value and all that they spanned before.** -/
theorem taken_widen (h : s.Typed t) (hv : v.fits t = true) (hn : v.isNull = false) :
    Taken s (s.widen v) t v := by
  obtain ⟨low, hlow, hlf, hln, hlv, hlb⟩ := widen_low h hv hn
  obtain ⟨high, hhigh, hhf, hhn, hhv, hhb⟩ := widen_high h hv hn
  refine ⟨⟨fun b hb => ?_, fun b hb => ?_, ?_⟩, ?_, fun x hx => ?_, ?_⟩
  · obtain rfl := Option.some.inj (hlow.symm.trans hb)
    exact ⟨hlf, hln⟩
  · obtain rfl := Option.some.inj (hhigh.symm.trans hb)
    exact ⟨hhf, hhn⟩
  · simp [hlow, hhigh]
  · rw [Admits, hn]
    exact ⟨low, high, hlow, hhigh, hlv, hhv⟩
  · unfold Admits at hx ⊢
    split
    · rename_i hnull
      rw [if_pos hnull] at hx
      exact hx
    · rename_i hnull
      rw [if_neg hnull] at hx
      obtain ⟨before, after, hb, ha, hbx, hxa⟩ := hx
      exact ⟨low, high, hlow, hhigh, (hlb before hb).trans hbx, hxa.trans (hhb after ha)⟩
  · simp [hlow, hn]

/-- **`NULL` is taken into account** by counting it. -/
theorem taken_null (h : s.Typed t) (hn : v.isNull = true) {n : Nat} (hpos : 0 < n) :
    Taken s { s with nulls := n } t v := by
  refine ⟨⟨h.least_fits, h.greatest_fits, h.none_iff⟩, ?_, fun x hx => ?_, by simp [hn]⟩
  · rw [Admits, if_pos hn, hasNulls]
    exact decide_eq_true hpos
  · unfold Admits at hx ⊢
    split
    · exact decide_eq_true hpos
    · rename_i hnull
      rwa [if_neg hnull] at hx

/-- The number of rows has no part in what is admitted. -/
theorem Taken.rows {s s' : Statistics} (h : Taken s s' t v) (n m : Nat) :
    Taken { s with rows := n } { s' with rows := m } t v := by
  obtain ⟨⟨hl, hg, hn⟩, ha, ho, hnone⟩ := h
  exact ⟨⟨hl, hg, hn⟩, ha, ho, hnone⟩

/-- **The value of a new row is taken into account.** -/
theorem taken_add (h : s.Typed t) (hv : v.fits t = true) : Taken s (s.add v) t v := by
  unfold add
  cases hn : v.isNull with
  | true => exact (taken_null h hn (Nat.succ_pos s.nulls)).rows s.rows (s.rows + 1)
  | false => exact (taken_widen h hv hn).rows s.rows (s.rows + 1)

@[simp] theorem rows_add (s : Statistics) (v : Scalar) : (s.add v).rows = s.rows + 1 := by
  unfold add
  cases v.isNull <;> rfl

/-- **A value that is written over a row is taken into account.** -/
theorem taken_update (h : s.Typed t) (hv : v.fits t = true) : Taken s (s.update v) t v := by
  unfold update
  cases hn : v.isNull with
  | true => exact taken_null h hn (Nat.lt_of_lt_of_le Nat.zero_lt_one (Nat.le_max_right _ _))
  | false => exact taken_widen h hv hn

@[simp] theorem rows_update (s : Statistics) (v : Scalar) : (s.update v).rows = s.rows := by
  unfold update
  cases v.isNull <;> rfl

/-- Statistics that have taken some values into account. -/
structure TakenAll (s s' : Statistics) (t : ColumnType) (vs : List Scalar) : Prop where
  typed : s'.Typed t
  admits : ∀ v ∈ vs, s'.Admits v
  admits_old : ∀ x, s.Admits x → s'.Admits x
  least_none : s'.least = none ↔ s.least = none ∧ ∀ v ∈ vs, v.isNull = true

/-- **The values of new rows are taken into account.** -/
theorem takenAll_addAll (h : s.Typed t) {vs : List Scalar} (hv : ∀ v ∈ vs, v.fits t = true) :
    TakenAll s (s.addAll vs) t vs ∧ (s.addAll vs).rows = s.rows + vs.length := by
  induction vs generalizing s with
  | nil => exact ⟨⟨h, by simp, fun _ => id, by simp [addAll]⟩, rfl⟩
  | cons v rest ih =>
    have hone := taken_add h (hv v List.mem_cons_self)
    obtain ⟨hall, hrows⟩ := ih hone.typed fun w hw => hv w (List.mem_cons_of_mem _ hw)
    have hcons : s.addAll (v :: rest) = (s.add v).addAll rest := rfl
    rw [hcons]
    refine ⟨⟨hall.typed, fun w hw => ?_, fun x hx => hall.admits_old x (hone.admits_old x hx), ?_⟩, ?_⟩
    · rcases List.mem_cons.mp hw with rfl | hw
      · exact hall.admits_old w hone.admits
      · exact hall.admits w hw
    · rw [hall.least_none, hone.least_none, List.forall_mem_cons, and_assoc]
    · rw [hrows, rows_add, List.length_cons]
      omega

/-! ## Verdicts -/

/-- **A verdict that the order of the constant to the bounds allows** is right for whatever lies
between them. -/
theorem neverAlways_sound (op : Comparison) {a b o : Ordering} (noNulls : Bool)
    (hlt : a = .lt → o = .gt) (hge : a ≠ .gt → o ≠ .lt) (hgt : b = .gt → o = .lt)
    (hle : b ≠ .lt → o ≠ .gt) :
    ((neverAlways op a b noNulls).1 = true → op.onOrder o = false) ∧
      ((neverAlways op a b noNulls).2 = true → op.onOrder o = true) := by
  cases op <;> cases a <;> cases b <;> cases o <;>
    simp_all [neverAlways, Comparison.onOrder]

/-- **`NULL` fails every verdict that takes it to be there.** -/
theorem neverAlways_null (op : Comparison) (a b : Ordering) :
    ((neverAlways op a b false).1 = true → op.onNulls true false = false) ∧
      ((neverAlways op a b false).2 = true → op.onNulls true false = true) := by
  cases op <;> simp [neverAlways, Comparison.onNulls]

/-- **The place of the constant beside the bounds** tells its place beside what they span. -/
theorem order?_of_spans {low high : Scalar} (hl : low.AtMost x) (hh : x.AtMost high) {a b o : Ordering}
    (ha : c.order? low = some a) (hb : c.order? high = some b) (ho : x.order? c = some o) :
    (a = .lt → o = .gt) ∧ (a ≠ .gt → o ≠ .lt) ∧ (b = .gt → o = .lt) ∧ (b ≠ .lt → o ≠ .gt) := by
  obtain ⟨p, hp, hpg⟩ := hl
  obtain ⟨q, hq, hqg⟩ := hh
  have hleft : a ≠ .gt → o = (a.then p).swap := fun hag =>
    Option.some.inj (ho.symm.trans (Scalar.order?_of_swap (Scalar.order?_chain c ha hp hag hpg)))
  have hright : b.swap ≠ .gt → o = q.then b.swap := fun hbg =>
    Option.some.inj (ho.symm.trans
      (Scalar.order?_chain x hq (Scalar.order?_of_swap hb) hqg hbg))
  refine ⟨fun h => ?_, fun h => ?_, fun h => ?_, fun h => ?_⟩
  · subst h
    exact hleft (by decide)
  · rw [hleft h]
    cases a <;> cases p <;> simp_all
  · subst h
    rw [hright (by decide)]
    exact then_lt hqg
  · rw [hright (by cases b <;> simp_all)]
    cases b <;> cases q <;> simp_all

/-- **A verdict on a comparison with `NULL`** is right for every value that is admitted. -/
theorem checkNull_sound (op : Comparison) (hx : s.Admits x) :
    (s.checkNull op = .alwaysFalse → op.onNulls x.isNull true = false) ∧
      (s.checkNull op = .alwaysTrue → op.onNulls x.isNull true = true) := by
  have hnull : s.hasNulls = false → x.isNull = false := fun h => by
    by_contra hn
    rw [Bool.not_eq_false] at hn
    rw [Admits, if_pos hn, h] at hx
    cases hx
  have hleast : s.least.isNone = true → x.isNull = true := fun h => by
    by_contra hn
    rw [Admits, if_neg hn] at hx
    obtain ⟨low, -, hlow, -⟩ := hx
    rw [hlow] at h
    cases h
  cases op with
  | distinctFrom =>
    cases hb : s.hasNulls with
    | false => simp [checkNull, Comparison.onNulls, hb, hnull hb]
    | true =>
      cases hl : s.least.isNone with
      | true => simp [checkNull, Comparison.onNulls, hb, hl, hleast hl]
      | false => simp [checkNull, hb, hl]
  | notDistinctFrom =>
    cases hb : s.hasNulls with
    | false => simp [checkNull, Comparison.onNulls, hb, hnull hb]
    | true =>
      cases hl : s.least.isNone with
      | true => simp [checkNull, Comparison.onNulls, hb, hl, hleast hl]
      | false => simp [checkNull, hb, hl]
  | _ => simp [checkNull, Comparison.onNulls]

/-- **A verdict on a comparison** is right for every value that is admitted. -/
theorem check_sound (h : s.Typed t) (hrows : s.rows ≠ 0) (op : Comparison) (hc : c.fits t = true)
    (hf : x.fits t = true) (hx : s.Admits x) :
    (s.check op c = .alwaysFalse → op.holds x c = false) ∧
      (s.check op c = .alwaysTrue → op.holds x c = true) := by
  unfold check
  rw [if_neg hrows]
  cases hcn : c.isNull with
  | true =>
    rw [if_pos rfl, Comparison.holds, hcn, Bool.or_true, if_pos rfl]
    exact checkNull_sound op hx
  | false =>
    rw [if_neg Bool.false_ne_true]
    cases hl : s.least with
    | none =>
      -- There is nothing but `NULL`.
      have hxn : x.isNull = true := by
        by_contra hn
        rw [Admits, if_neg hn] at hx
        obtain ⟨low, -, hlow, -⟩ := hx
        rw [hl] at hlow
        cases hlow
      rw [h.none_iff.mp hl, Comparison.holds, hxn, hcn, Bool.true_or, if_pos rfl]
      cases op <;> simp [Comparison.onNulls]
    | some low =>
      cases hg : s.greatest with
      | none =>
        rw [h.none_iff.mpr hg] at hl
        cases hl
      | some high =>
        obtain ⟨hlf, hln⟩ := h.least_fits low hl
        obtain ⟨hhf, hhn⟩ := h.greatest_fits high hg
        obtain ⟨a, ha⟩ := Scalar.order?_of_fits c hc hlf hcn hln
        obtain ⟨b, hb⟩ := Scalar.order?_of_fits c hc hhf hcn hhn
        dsimp only
        rw [ha, hb]
        have hverdict : ((neverAlways op a b (!s.hasNulls)).1 = true → op.holds x c = false) ∧
            ((neverAlways op a b (!s.hasNulls)).2 = true → op.holds x c = true) := by
          rw [Comparison.holds, hcn, Bool.or_false]
          cases hxn : x.isNull with
          | true =>
            rw [Admits, if_pos hxn] at hx
            rw [hx, if_pos rfl]
            exact neverAlways_null op a b
          | false =>
            rw [Admits, if_neg (by simp [hxn])] at hx
            obtain ⟨low', high', hl', hg', hlx, hxh⟩ := hx
            obtain rfl := Option.some.inj (hl.symm.trans hl')
            obtain rfl := Option.some.inj (hg.symm.trans hg')
            obtain ⟨o, ho⟩ := Scalar.order?_of_fits x hf hc hxn hcn
            obtain ⟨hlt, hge, hgt, hle⟩ := order?_of_spans hlx hxh ha hb ho
            rw [if_neg Bool.false_ne_true, ho, Option.any_some]
            exact neverAlways_sound op (!s.hasNulls) hlt hge hgt hle
        dsimp only
        generalize neverAlways op a b (!s.hasNulls) = p at hverdict
        obtain ⟨never, always⟩ := p
        cases never <;> cases always <;> simp_all

end Statistics
end ColumnStore
