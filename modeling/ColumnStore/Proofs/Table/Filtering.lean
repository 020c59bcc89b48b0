/-
# Filters on integers

A filter on a column of integers with an integer constant of any type says something about integers
(`Filter.admits`).  Bound to the type of the column it says the same: with the constant as a value of
the type if it is one, else with a bound of the type, or always, or never (`Filter.bind_means`).

`BoundFilters.narrow_eq`: a conjunction of such filters can be bound to any table, and keeps of a
selection the rows that all filters admit, in their order.
-/

import ColumnStore.Proofs.Row.Appending
import ColumnStore.Proofs.Row.Matching
import ColumnStore.Table.Filter

namespace ColumnStore

/-! ## Comparisons of integers -/

/-- What an operator says of two integers. -/
def Comparison.onInts (op : Comparison) (a b : Int) : Bool :=
  match op with
  | .equal | .notDistinctFrom => a = b
  | .notEqual | .distinctFrom => a ≠ b
  | .lessThan => a < b
  | .lessThanOrEqual => a ≤ b
  | .greaterThan => b < a
  | .greaterThanOrEqual => b ≤ a

theorem Comparison.onOrder_compare (op : Comparison) (a b : Int) :
    op.onOrder (compare a b) = op.onInts a b := by
  rcases Int.lt_trichotomy a b with h | rfl | h
  · have hlt : compare a b = .lt := by rw [Int.compare_eq_ite_lt, if_pos h]
    rw [hlt]
    cases op <;> first
      | exact (decide_eq_true (by omega)).symm
      | exact (decide_eq_false (by omega)).symm
  · have heq : compare a a = .eq := by
      rw [Int.compare_eq_ite_lt, if_neg (Int.lt_irrefl a), if_neg (Int.lt_irrefl a)]
    rw [heq]
    cases op <;> first
      | exact (decide_eq_true (by omega)).symm
      | exact (decide_eq_false (by omega)).symm
  · have hgt : compare a b = .gt := by
      rw [Int.compare_eq_ite_lt, if_neg (Int.lt_asymm h), if_pos h]
    rw [hgt]
    cases op <;> first
      | exact (decide_eq_true (by omega)).symm
      | exact (decide_eq_false (by omega)).symm

/-! ## Integers as values -/

namespace Scalar

variable {t : ColumnType} {low high n : Int} {x y : Scalar}

/-- **A value of an integer type** is `NULL` or an integer in the range of the type. -/
theorem toInt?_of_fits (ht : t.range? = some (low, high)) (hx : x.fits t = true) :
    (x.isNull = true ∧ x.toInt? = none) ∨
      ∃ a, x.isNull = false ∧ x.toInt? = some a ∧ low ≤ a ∧ a ≤ high := by
  cases t <;> cases ht <;> cases x <;> first
    | exact .inl ⟨rfl, rfl⟩
    | cases hx; done
    | (rename_i v
       refine .inr ⟨_, rfl, rfl, ?_, ?_⟩ <;> first
        | exact v.le_toInt
        | exact v.toInt_le
        | exact Int.natCast_nonneg _
        | exact Int.le_of_lt_add_one (Int.ofNat_lt.mpr v.toNat_lt))

/-- Values of one integer type are in the order of their integers. -/
theorem order?_ints (ht : t.range? = some (low, high)) (hx : x.fits t = true)
    (hy : y.fits t = true) {a b : Int} (ha : x.toInt? = some a) (hb : y.toInt? = some b) :
    x.order? y = some (compare a b) := by
  cases t <;> cases ht <;> cases x <;> first
    | cases hx; done
    | cases ha; done
    | (cases y <;> first
        | cases hy; done
        | cases hb; done
        | (obtain rfl := Option.some.inj ha
           obtain rfl := Option.some.inj hb
           first
            | rfl
            | exact congrArg some (compare_natCast _ _).symm))

/-- **An integer in the range of a type is a value of the type.** -/
theorem toInt?_ofInt (ht : t.range? = some (low, high)) (hlow : low ≤ n) (hhigh : n ≤ high) :
    (ofInt t n).fits t = true ∧ (ofInt t n).toInt? = some n := by
  cases t <;> cases ht <;> refine ⟨rfl, congrArg some ?_⟩
  · exact Int8.toInt_ofInt_of_le (by omega) (by omega)
  · exact Int16.toInt_ofInt_of_le (by omega) (by omega)
  · exact Int32.toInt_ofInt_of_le (by omega) (by omega)
  · exact Int64.toInt_ofInt_of_le (by omega) (by omega)
  · rw [UInt64.toNat_ofNat', Nat.mod_eq_of_lt (by omega)]
    omega

theorem fits_ofInt (ht : t.range? = some (low, high)) (n : Int) : (ofInt t n).fits t = true := by
  cases t <;> cases ht <;> rfl

/-- **What a value is cast to** is of the type. -/
theorem fits_of_cast? (h : x.cast? t = some y) : y.fits t = true := by
  unfold cast? at h
  split at h
  · rename_i hfit
    exact Option.some.inj h ▸ hfit
  · split at h
    · obtain rfl := Option.some.inj h
      rfl
    · obtain ⟨n, -, h⟩ := Option.bind_eq_some_iff.mp h
      unfold castInt? at h
      split at h
      · obtain rfl := Option.some.inj h
        rfl
      · obtain rfl := Option.some.inj h
        rfl
      · split at h
        · rename_i low high ht
          obtain ⟨-, h⟩ := Option.ite_none_right_eq_some.mp h
          exact Option.some.inj h ▸ fits_ofInt ht n
        · cases h

/-- **An integer is cast** to the type if it is in its range. -/
theorem cast?_int (ht : t.range? = some (low, high)) (hn : x.toInt? = some n) :
    (low ≤ n ∧ n ≤ high → ∃ y, x.cast? t = some y ∧ y.fits t = true ∧ y.toInt? = some n) ∧
      (¬(low ≤ n ∧ n ≤ high) → x.cast? t = none) := by
  have hcast : x.fits t = false →
      x.cast? t = if low ≤ n ∧ n ≤ high then some (ofInt t n) else none := by
    intro hfit
    have hint : x.cast? t = castInt? n t := by
      unfold cast?
      rw [hfit, if_neg Bool.false_ne_true]
      cases t <;> cases ht <;> cases x <;> exact congrArg (fun a => Option.bind a _) hn
    rw [hint]
    cases t <;> cases ht <;> rfl
  cases hfit : x.fits t with
  | true =>
    obtain ⟨-, hnone⟩ | ⟨a, -, ha, hlow, hhigh⟩ := toInt?_of_fits ht hfit
    · rw [hn] at hnone
      cases hnone
    · obtain rfl := Option.some.inj (hn.symm.trans ha)
      have hself : x.cast? t = some x := by
        unfold cast?
        rw [if_pos hfit]
      exact ⟨fun _ => ⟨x, hself, hfit, hn⟩, fun h => absurd ⟨hlow, hhigh⟩ h⟩
  | false =>
    rw [hcast hfit]
    refine ⟨fun h => ?_, fun h => if_neg h⟩
    obtain ⟨hofInt, hto⟩ := toInt?_ofInt ht h.1 h.2
    exact ⟨_, if_pos h, hofInt, hto⟩

end Scalar

/-- **Values of an integer type compare as their integers.** -/
theorem Comparison.holds_ints {t : ColumnType} {low high : Int} (ht : t.range? = some (low, high))
    (op : Comparison) {x y : Scalar} (hx : x.fits t = true) (hy : y.fits t = true) :
    op.holds x y =
      match x.toInt?, y.toInt? with
      | some a, some b => op.onInts a b
      | a, b => op.onNulls a.isNone b.isNone := by
  rw [holds]
  obtain ⟨hxn, ha⟩ | ⟨a, hxn, ha, -⟩ := Scalar.toInt?_of_fits ht hx <;>
    obtain ⟨hyn, hb⟩ | ⟨b, hyn, hb, -⟩ := Scalar.toInt?_of_fits ht hy <;>
    rw [hxn, hyn, ha, hb]
  · rfl
  · rfl
  · rfl
  · rw [Scalar.order?_ints ht hx hy ha hb]
    exact op.onOrder_compare a b

/-! ## One filter -/

namespace Filter

variable {f : Filter} {t : ColumnType} {low high : Int}

/-- Whether a value compares as a filter asks, integers as integers; a side that is no integer is
`NULL`. -/
def admits (f : Filter) (x : Scalar) : Bool :=
  match x.toInt?, f.constant.toInt? with
  | some a, some b => f.op.onInts a b
  | a, b => f.op.onNulls a.isNone b.isNone

/-- The constant of a filter is an integer of any type, or `NULL`. -/
def IsIntegral (f : Filter) : Prop := f.constant = .null ∨ ∃ n, f.constant.toInt? = some n

end Filter

/-- What is left of a filter on a column of a type says the same of all values of the type. -/
def BoundFilter.Means (b : BoundFilter) (f : Filter) (t : ColumnType) : Prop :=
  match b with
  | .compare g => g.column = f.column ∧ g.constant.fits t = true ∧
      ∀ x : Scalar, x.fits t = true → g.op.holds x g.constant = f.admits x
  | .always => ∀ x : Scalar, x.fits t = true → f.admits x = true
  | .never => ∀ x : Scalar, x.fits t = true → f.admits x = false

namespace Filter

variable {f : Filter} {t : ColumnType} {low high : Int}

/-- A filter that compares with another constant means the same if both comparisons agree on the
integers of the type, and on `NULL`. -/
theorem means_compare {g : Filter} (ht : t.range? = some (low, high)) {m n : Int}
    (hc : g.constant.fits t = true) (hm : g.constant.toInt? = some m)
    (hn : f.constant.toInt? = some n) (hcolumn : g.column = f.column)
    (hnull : g.op.onNulls true false = f.op.onNulls true false)
    (h : ∀ a, low ≤ a → a ≤ high → g.op.onInts a m = f.op.onInts a n) :
    (BoundFilter.compare g).Means f t := by
  refine ⟨hcolumn, hc, fun x hx => ?_⟩
  rw [Comparison.holds_ints ht g.op hx hc, admits, hm, hn]
  obtain ⟨-, ha⟩ | ⟨a, -, ha, hlow, hhigh⟩ := Scalar.toInt?_of_fits ht hx <;> rw [ha]
  · exact hnull
  · exact h a hlow hhigh

/-- A filter with an integer constant that has one outcome for all values of the type. -/
theorem admits_all (ht : t.range? = some (low, high)) {n : Int} (hn : f.constant.toInt? = some n)
    {result : Bool} (hnull : f.op.onNulls true false = result)
    (h : ∀ a, low ≤ a → a ≤ high → f.op.onInts a n = result) (x : Scalar) (hx : x.fits t = true) :
    f.admits x = result := by
  rw [admits, hn]
  obtain ⟨-, ha⟩ | ⟨a, -, ha, hlow, hhigh⟩ := Scalar.toInt?_of_fits ht hx <;> rw [ha]
  · exact hnull
  · exact h a hlow hhigh

/-- **An integer that is no value of the type** is greater than all of them or less than all. -/
theorem bindOutOfRange?_means (ht : t.range? = some (low, high)) {n : Int}
    (hn : f.constant.toInt? = some n) (hout : ¬(low ≤ n ∧ n ≤ high)) :
    ∃ b, f.bindOutOfRange? t = some b ∧ b.Means f t := by
  have hle : low ≤ high := by cases t <;> cases ht <;> decide
  obtain ⟨hlowFits, hlowInt⟩ := Scalar.toInt?_ofInt ht (Int.le_refl low) hle
  obtain ⟨hhighFits, hhighInt⟩ := Scalar.toInt?_ofInt ht hle (Int.le_refl high)
  obtain ⟨column, op, constant⟩ := f
  rw [bindOutOfRange?]
  dsimp only at hn ⊢
  rw [hn, ht]
  simp only [Option.bind_eq_bind, Option.bind_some, if_neg hout]
  -- the bound of the type on the side of the constant takes its place
  by_cases habove : high < n
  · simp only [if_pos habove]
    cases op
    case distinctFrom =>
      exact ⟨_, rfl, admits_all ht hn rfl fun a _ ha => decide_eq_true (by omega)⟩
    case equal | notDistinctFrom | greaterThan | greaterThanOrEqual =>
      exact ⟨_, rfl, admits_all ht hn rfl fun a _ ha => decide_eq_false (by omega)⟩
    case notEqual | lessThan | lessThanOrEqual =>
      refine ⟨_, rfl, means_compare ht hhighFits hhighInt hn rfl rfl fun a _ ha => ?_⟩
      exact (decide_eq_true ha).trans (decide_eq_true (by omega)).symm
  · simp only [if_neg habove]
    cases op
    case distinctFrom =>
      exact ⟨_, rfl, admits_all ht hn rfl fun a ha _ => decide_eq_true (by omega)⟩
    case equal | notDistinctFrom | lessThan | lessThanOrEqual =>
      exact ⟨_, rfl, admits_all ht hn rfl fun a ha _ => decide_eq_false (by omega)⟩
    case notEqual | greaterThan | greaterThanOrEqual =>
      refine ⟨_, rfl, means_compare ht hlowFits hlowInt hn rfl rfl fun a ha _ => ?_⟩
      exact (decide_eq_true ha).trans (decide_eq_true (by omega)).symm

/-- **A filter means on its column what it says of integers.** -/
theorem bind_means (ht : t.range? = some (low, high)) (hf : f.IsIntegral) :
    ∃ b, f.bind t = .ok b ∧ b.Means f t := by
  rw [bind]
  rcases hf with hnull | ⟨n, hn⟩
  · have hcast : f.constant.cast? t = some .null := by
      rw [hnull]
      rfl
    rw [hcast]
    refine ⟨_, rfl, rfl, rfl, fun x hx => ?_⟩
    rw [Comparison.holds_ints ht _ hx rfl, admits, hnull]
  · obtain ⟨hin, hout⟩ := Scalar.cast?_int ht hn
    by_cases hrange : low ≤ n ∧ n ≤ high
    · obtain ⟨c, hcast, hfit, hc⟩ := hin hrange
      rw [hcast]
      exact ⟨_, rfl, means_compare ht hfit hc hn rfl rfl fun a _ _ => rfl⟩
    · obtain ⟨b, hb, hmeans⟩ := bindOutOfRange?_means ht hn hrange
      rw [hout hrange, hb]
      exact ⟨b, rfl, hmeans⟩

/-- **A filter that is left** compares its column with a value of the type. -/
theorem of_bind_ok {g : Filter} (h : f.bind t = .ok (.compare g)) :
    g.column = f.column ∧ g.constant.fits t = true := by
  rw [bind] at h
  split at h
  · rename_i constant hcast
    cases Except.ok.inj h
    exact ⟨rfl, Scalar.fits_of_cast? hcast⟩
  · split at h
    · rename_i b hb
      obtain rfl := Except.ok.inj h
      obtain ⟨n, -, hb⟩ := Option.bind_eq_some_iff.mp hb
      obtain ⟨⟨low, high⟩, ht, hb⟩ := Option.bind_eq_some_iff.mp hb
      have hfits := Scalar.fits_ofInt ht
      dsimp only at hb
      split at hb
      · cases hb
      · split at hb <;> (try split at hb) <;> cases Option.some.inj hb <;> exact ⟨rfl, hfits _⟩
    · cases h

end Filter

/-! ## Conjunctions -/

namespace BoundFilters

variable {t : Table} {filters compared : List Filter} {bound : List BoundFilter}
  {types : List ColumnType} {vector : Nat → ValueVector} {count : Nat} {selection : Selection}

/-- A filter compares a column of integers with an integer or `NULL`. -/
def OnIntegers (t : Table) (f : Filter) : Prop :=
  (∃ type, t.types[f.column]? = some type ∧ type.range?.isSome = true) ∧ f.IsIntegral

/-- A filter is left with a meaning on its column. -/
def MeansIn (t : Table) (f : Filter) (b : BoundFilter) : Prop :=
  ∃ type low high, t.types[f.column]? = some type ∧ type.range? = some (low, high) ∧ b.Means f type

/-- Every filter on integers is bound. -/
theorem bindEach_ok (h : ∀ f ∈ filters, OnIntegers t f) :
    ∃ bound, bindEach t filters = .ok bound ∧ List.Forall₂ (MeansIn t) filters bound := by
  induction filters with
  | nil => exact ⟨[], rfl, .nil⟩
  | cons f rest ih =>
    obtain ⟨bound, hbound, hmeans⟩ := ih fun g hg => h g (List.mem_cons_of_mem _ hg)
    obtain ⟨⟨type, htype, hrange⟩, hconstant⟩ := h f List.mem_cons_self
    obtain ⟨⟨low, high⟩, hrange⟩ := Option.isSome_iff_exists.mp hrange
    obtain ⟨b, hb, hb'⟩ := Filter.bind_means hrange hconstant
    refine ⟨b :: bound, ?_, .cons ⟨type, low, high, htype, hrange, hb'⟩ hmeans⟩
    unfold bindEach at hbound ⊢
    rw [List.mapM_cons, htype]
    dsimp only
    rw [hb, ok_bind, hbound]
    rfl

/-- Filters that are compared with values of the types of their columns. -/
def Typed (t : Table) : List Filter → List ColumnType → Prop :=
  List.Forall₂ fun g type => t.types[g.column]? = some type ∧ g.constant.fits type = true

theorem Typed.type_of_mem (h : Typed t compared types) {k : Nat} {g : Filter}
    (hg : compared[k]? = some g) :
    ∃ type, types[k]? = some type ∧ t.types[g.column]? = some type ∧ g.constant.fits type = true := by
  obtain ⟨hk, rfl⟩ := List.getElem?_eq_some_iff.mp hg
  have hk' : k < types.length := h.length_eq ▸ hk
  obtain ⟨hcolumn, hfit⟩ := List.Forall₂.get h hk hk'
  exact ⟨types[k], List.getElem?_eq_getElem hk', hcolumn, hfit⟩

theorem Typed.types_eq (h : Typed t compared types) :
    compared.filterMap (fun g => t.types[g.column]?) = types := by
  induction h with
  | nil => rfl
  | @cons g type _ _ hone _ ih =>
    rw [List.filterMap_cons_some (f := fun g : Filter => t.types[g.column]?) hone.1, ih]

/-- Constants that are integers have no text. -/
theorem Typed.textLength (h : Typed t compared types)
    (hrange : ∀ type ∈ types, type.range?.isSome = true) :
    PackedRows.textLength (compared.map (·.constant)) = 0 := by
  induction h with
  | nil => rfl
  | @cons g type _ _ hone _ ih =>
    have htext : PackedRows.textOf g.constant = [] := by
      obtain ⟨-, hfit⟩ := hone
      have hrange := hrange type List.mem_cons_self
      cases hc : g.constant with
      | varchar s =>
        rw [hc] at hfit
        cases type <;> first | (cases hfit; done) | cases hrange
      | _ => rfl
    rw [List.map_cons, PackedRows.textLength, List.flatMap_cons, htext]
    exact ih fun type hmem => hrange type (List.mem_cons_of_mem _ hmem)

/-- **The constants of filters** are packed in a row that holds them, where they are packed. -/
theorem Typed.of_constants (h : Typed t compared types) {matcher : Matcher} {packed : PackedRows}
    (hok : constants t compared = .ok (matcher, packed)) :
    matcher = ⟨compared.map (·.op)⟩ ∧ packed.layout.types = types ∧
      ∀ (k : Nat) (g : Filter), compared[k]? = some g →
        packed.isValid? 0 k = some !g.constant.isNull ∧ packed.get? 0 k = some g.constant := by
  rw [constants, h.types_eq] at hok
  obtain ⟨layout, hlayout, hok⟩ := bind_eq_ok.mp hok
  obtain ⟨rfl, hplain⟩ := RowLayout.of_new_ok hlayout
  obtain ⟨matcher', hmatcher, hok⟩ := bind_eq_ok.mp hok
  obtain ⟨rfl, -⟩ := Matcher.new_eq_ok.mp hmatcher
  split at hok
  · rename_i n packed' happend
    obtain ⟨rfl, rfl⟩ := Prod.mk.inj (Except.ok.inj hok)
    have hrecords := (PackedRows.records_new (l := ⟨types⟩) hplain).of_appendRow happend
    have hkeeps := PackedRows.appendRow_keeps (PackedRows.packs_new (l := ⟨types⟩) hplain).length_eq happend
    refine ⟨rfl, congrArg RowLayout.types hkeeps.layout_eq, fun k g hg => ?_⟩
    exact hrecords.packs.get? rfl (by rw [List.getElem?_map, hg]; rfl)
  · cases hok

theorem typed_filterMap (h : List.Forall₂ (MeansIn t) filters bound) :
    ∃ types, Typed t (bound.filterMap BoundFilter.filter?) types ∧
      ∀ type ∈ types, type.range?.isSome = true := by
  induction h with
  | nil => exact ⟨[], .nil, fun _ hmem => absurd hmem List.not_mem_nil⟩
  | @cons f b _ rest hb _ ih =>
    obtain ⟨types, htypes, hranges⟩ := ih
    obtain ⟨type, low, high, htype, hrange, hmeans⟩ := hb
    cases b with
    | always | never => exact ⟨types, htypes, hranges⟩
    | compare g =>
      obtain ⟨hcolumn, hfit, -⟩ := hmeans
      exact ⟨type :: types, .cons ⟨hcolumn ▸ htype, hfit⟩ htypes,
        List.forall_mem_cons.mpr ⟨by rw [hrange]; rfl, hranges⟩⟩

/-- Integer types have slots in a packed row, and values that can be compared in any way. -/
theorem packs_of_range {type : ColumnType} (h : type.range?.isSome = true) :
    type.isNested = false ∧ ∀ op, Matcher.supports op type = .ok () := by
  cases type <;> first
    | exact ⟨rfl, fun _ => rfl⟩
    | cases h

theorem checkAll_ok (ops : List Comparison) (h : ∀ type ∈ types, type.range?.isSome = true) :
    Matcher.checkAll ops types = .ok () := by
  induction ops generalizing types with
  | nil => cases types <;> rfl
  | cons op ops ih =>
    cases types with
    | nil => rfl
    | cons type rest =>
      obtain ⟨-, hsupports⟩ := packs_of_range (h type List.mem_cons_self)
      rw [Matcher.checkAll, hsupports op, ok_bind]
      exact ih fun u hu => h u (List.mem_cons_of_mem _ hu)

/-- **The constants of filters on integers** are packed. -/
theorem constants_ok (h : Typed t compared types)
    (hrange : ∀ type ∈ types, type.range?.isSome = true) :
    ∃ packed, constants t compared = .ok (⟨compared.map (·.op)⟩, packed) := by
  have hplain : ∀ type ∈ types, type.isNested = false := fun type hmem =>
    (packs_of_range (hrange type hmem)).1
  have hmatcher : Matcher.new ⟨types⟩ (compared.map (·.op)) = .ok ⟨compared.map (·.op)⟩ := by
    rw [Matcher.new, if_pos (by rw [List.length_map]; exact h.length_eq), checkAll_ok _ hrange]
    rfl
  have hadmits : PackedRows.Admits types [] [compared.map (·.constant)] := by
    refine ⟨List.forall_mem_singleton.mpr ?_, show 1 < UInt64.size by decide, ?_⟩
    · exact List.forall₂_map_left_iff.mpr (h.imp fun g type hone => hone.2)
    · rw [List.nil_append, List.flatten_singleton, h.textLength hrange]
      decide
  obtain ⟨packed, happend, -⟩ :=
    (PackedRows.records_new (l := ⟨types⟩) hplain).appendRow_ok hadmits
  refine ⟨packed, ?_⟩
  rw [constants, h.types_eq, RowLayout.new_ok hplain, ok_bind, hmatcher, ok_bind, happend]
  rfl

/-! ## Rows -/

/-- The rows of a selection that are kept by what filters come to, which is nothing when they hold
always. -/
def narrow (bound : Option BoundFilters) (vector : Nat → ValueVector) (count : Nat)
    (selection : Selection) : Except StorageError Selection :=
  match bound with
  | none => .ok selection
  | some b => b.apply (b.columns.map vector) count selection

/-- Whether the value of a row in the column of a filter is admitted. -/
def passes (vector : Nat → ValueVector) (row : Nat) (f : Filter) : Bool :=
  ((vector f.column).get? row).any f.admits

/-- The columns of filters are vectors of the types of a table with `count` slots at least. -/
def Reads (t : Table) (filters : List Filter) (vector : Nat → ValueVector) (count : Nat) : Prop :=
  ∀ f ∈ filters, (vector f.column).Sound ∧ t.types[f.column]? = some (vector f.column).type ∧
    count ≤ (vector f.column).capacity

/-- Whether the value of a row in the column of a filter compares with its constant. -/
def compares (vector : Nat → ValueVector) (row : Nat) (g : Filter) : Bool :=
  ((vector g.column).get? row).any (g.op.holds · g.constant)

/-- What is left of a filter on the value of a row. -/
def outcome (vector : Nat → ValueVector) (row : Nat) : BoundFilter → Bool
  | .compare g => compares vector row g
  | .always => true
  | .never => false

/-- What a filter comes to is what it says of the value of a row. -/
theorem passes_eq {f : Filter} {b : BoundFilter} (h : MeansIn t f b)
    (hreads : (vector f.column).Sound ∧ t.types[f.column]? = some (vector f.column).type ∧
      count ≤ (vector f.column).capacity) {row : Nat} (hrow : row < count) :
    passes vector row f = outcome vector row b := by
  obtain ⟨type, low, high, htype, hrange, hmeans⟩ := h
  obtain ⟨hsound, hvector, hcapacity⟩ := hreads
  obtain rfl := Option.some.inj (htype.symm.trans hvector)
  obtain ⟨x, hx, hfit⟩ := ValueVector.get?_of_lt hsound (Nat.lt_of_lt_of_le hrow hcapacity)
  have hpasses : passes vector row f = f.admits x := by
    rw [passes, hx]
    rfl
  rw [hpasses]
  cases b with
  | compare g =>
    obtain ⟨hcolumn, -, hholds⟩ := hmeans
    have hcompares : compares vector row g = g.op.holds x g.constant := by
      rw [compares, hcolumn, hx]
      rfl
    exact ((hholds x hfit).symm).trans hcompares.symm
  | always => exact hmeans x hfit
  | never => exact hmeans x hfit

/-- **All filters pass a row** if none never does and all comparisons hold. -/
theorem all_passes (h : List.Forall₂ (MeansIn t) filters bound) (hreads : Reads t filters vector count)
    {row : Nat} (hrow : row < count) :
    filters.all (passes vector row) =
      (!(bound.any BoundFilter.isNever) &&
        (bound.filterMap BoundFilter.filter?).all (compares vector row)) := by
  induction h with
  | nil => rfl
  | @cons f b _ rest hb _ ih =>
    have hone := passes_eq hb (hreads f List.mem_cons_self) hrow
    have hrest := ih fun g hg => hreads g (List.mem_cons_of_mem _ hg)
    rw [List.all_cons, hone, hrest]
    cases b with
    | compare g => exact Bool.and_left_comm _ _ _
    | always => rfl
    | never => rfl

theorem reads_filterMap (h : List.Forall₂ (MeansIn t) filters bound)
    (hreads : Reads t filters vector count) : Reads t (bound.filterMap BoundFilter.filter?) vector count := by
  induction h with
  | nil => exact fun _ hg => absurd hg List.not_mem_nil
  | @cons f b _ rest hb _ ih =>
    have hrest := ih fun g hg => hreads g (List.mem_cons_of_mem _ hg)
    obtain ⟨type, low, high, -, -, hmeans⟩ := hb
    cases b with
    | always | never => exact hrest
    | compare g =>
      exact List.forall_mem_cons.mpr
        ⟨hmeans.1.symm ▸ hreads f List.mem_cons_self, hrest⟩

theorem all_range_getElem? {α : Type} (l : List α) (p : α → Bool) :
    ((List.range l.length).all fun k => (l[k]?).any p) = l.all p := by
  rw [Bool.eq_iff_iff, List.all_eq_true, List.all_eq_true]
  constructor
  · intro h x hx
    obtain ⟨k, hk, rfl⟩ := List.mem_iff_getElem.mp hx
    have := h k (List.mem_range.mpr hk)
    rwa [List.getElem?_eq_getElem hk] at this
  · intro h k hk
    rw [List.getElem?_eq_getElem (List.mem_range.mp hk)]
    exact h _ (List.getElem_mem _)

/-- **A matcher for filters** keeps the rows that compare as they ask. -/
theorem apply_ok {packed : PackedRows} (htyped : Typed t compared types)
    (hlayout : packed.layout.types = types)
    (hpacked : ∀ (k : Nat) (g : Filter), compared[k]? = some g →
      packed.isValid? 0 k = some !g.constant.isNull ∧ packed.get? 0 k = some g.constant)
    (hreads : Reads t compared vector count) (hselection : ∀ row ∈ selection, row < count) :
    apply ⟨compared, some (⟨compared.map (·.op)⟩, packed)⟩ (compared.map fun g => vector g.column)
      count selection = .ok (selection.filter fun row => compared.all (compares vector row)) := by
  have hlength := htyped.length_eq
  -- The filter that a column is compared for is the one of the same number.
  have htells : ∀ k op, (compared.map (·.op))[k]? = some op →
      Matcher.Tells packed (List.replicate count 0) none (compared.map fun g => vector g.column)
        (fun k row => (compared[k]?).any (compares vector row)) selection k op := fun k op hop => by
      rw [List.getElem?_map] at hop
      obtain ⟨g, hg, rfl⟩ := Option.map_eq_some_iff.mp hop
      obtain ⟨hvalid, hget⟩ := hpacked k g hg
      obtain ⟨hsound, htype, hcapacity⟩ := hreads g (List.mem_of_getElem? hg)
      obtain ⟨type, ht, hcolumn, hfit⟩ := htyped.type_of_mem hg
      obtain rfl := Option.some.inj (hcolumn.symm.trans htype)
      refine ⟨vector g.column, by rw [List.getElem?_map, hg]; rfl, by rw [hlayout, ht], fun row hrow => ?_⟩
      have hlt := hselection row hrow
      obtain ⟨x, hx, -⟩ := ValueVector.get?_of_lt hsound (Nat.lt_of_lt_of_le hlt hcapacity)
      have hholds := Matcher.holds?_eq g.op hsound (Nat.lt_of_lt_of_le hlt hcapacity) hx
        hvalid hget hfit
      rw [Matcher.test, List.getElem?_replicate_of_lt hlt]
      rw [Option.bind_eq_bind, Option.bind_some, hholds, hg]
      refine congrArg some ?_
      rw [Option.any_some, compares, hx]
      rfl
  have hcolumns : packed.layout.types.length ≤ (compared.map fun g => vector g.column).length := by
    rw [hlayout, List.length_map]
    exact Nat.le_of_eq hlength.symm
  have hrun := @Matcher.runColumns_eq _ _ _ _ ⟨compared.map (·.op)⟩ _ ⟨selection, []⟩ hcolumns htells
  rw [apply]
  dsimp only
  rw [if_neg (by rw [List.length_map]; exact not_not.mpr rfl), hrun]
  refine congrArg Except.ok (List.filter_congr fun row _ => ?_)
  rw [List.length_map]
  exact all_range_getElem? compared _

/-! ## Filters of any types -/

/-- Filters that were bound to a table: their constants are of the types of their columns, and packed
in a row, unless they never hold. -/
def Fits (t : Table) (b : BoundFilters) : Prop :=
  ∃ types, Typed t b.filters types ∧ ∀ matcher packed, b.matcher = some (matcher, packed) →
    matcher = ⟨b.filters.map (·.op)⟩ ∧ packed.layout.types = types ∧
    ∀ (k : Nat) (g : Filter), b.filters[k]? = some g →
      packed.isValid? 0 k = some !g.constant.isNull ∧ packed.get? 0 k = some g.constant

/-- Filters that are left compare with values of the types of their columns. -/
theorem typed_of_bindEach (h : bindEach t filters = .ok bound) :
    ∃ types, Typed t (bound.filterMap BoundFilter.filter?) types := by
  induction filters generalizing bound with
  | nil =>
    obtain rfl := Except.ok.inj h
    exact ⟨[], .nil⟩
  | cons f rest ih =>
    rw [bindEach, List.mapM_cons] at h
    obtain ⟨b, hb, h⟩ := bind_eq_ok.mp h
    obtain ⟨more, hmore, h⟩ := bind_eq_ok.mp h
    obtain rfl := Except.ok.inj h
    obtain ⟨types, htypes⟩ := ih hmore
    split at hb
    · cases hb
    rename_i type htype
    cases b with
    | always | never => exact ⟨types, htypes⟩
    | compare g =>
      obtain ⟨hcolumn, hfit⟩ := Filter.of_bind_ok hb
      exact ⟨type :: types, .cons ⟨hcolumn ▸ htype, hfit⟩ htypes⟩

/-- **Filters that can be bound** are bound to the table. -/
theorem fits_of_bind {b : BoundFilters} (h : bind t filters = .ok (some b)) : b.Fits t := by
  obtain ⟨bound, hbound, h⟩ := bind_eq_ok.mp h
  obtain ⟨types, htyped⟩ := typed_of_bindEach hbound
  dsimp only at h
  split at h
  · obtain rfl := Option.some.inj (Except.ok.inj h)
    exact ⟨[], .nil, by rintro matcher packed ⟨⟩⟩
  split at h
  · cases Except.ok.inj h
  split at h
  · cases h
  · rename_i p hconstants
    obtain rfl := Option.some.inj (Except.ok.inj h)
    refine ⟨types, htyped, fun matcher packed heq => ?_⟩
    obtain rfl := Option.some.inj heq
    exact htyped.of_constants hconstants

/-- Whether values compare with all constants as the filters ask, the value in a column given by the
number of the column. -/
def admits (b : BoundFilters) (value : Nat → Scalar) : Bool :=
  !b.isNever && b.filters.all fun g => g.op.holds (value g.column) g.constant

/-- **Of a selection the rows are kept** whose values compare as the filters ask. -/
theorem Fits.apply_eq {b : BoundFilters} (h : b.Fits t) (hreads : Reads t b.filters vector count)
    (hselection : ∀ row ∈ selection, row < count) (value : Nat → Nat → Scalar)
    (hvalue : ∀ row ∈ selection, ∀ g ∈ b.filters,
      (vector g.column).get? row = some (value row g.column)) :
    b.apply (b.columns.map vector) count selection =
      .ok (selection.filter fun row => b.admits (value row)) := by
  obtain ⟨compared, matcher⟩ := b
  obtain ⟨types, htyped, hmatcher⟩ := h
  cases matcher with
  | none =>
    exact congrArg Except.ok (List.filter_eq_nil_iff.mpr fun _ _ => Bool.false_ne_true).symm
  | some p =>
    obtain ⟨matcher, packed⟩ := p
    obtain ⟨hops, hlayout, hpacked⟩ := hmatcher matcher packed rfl
    obtain rfl : matcher = ⟨compared.map (·.op)⟩ := hops
    have hcolumns : (compared.map (·.column)).map vector = compared.map fun g => vector g.column :=
      List.map_map
    rw [columns, hcolumns]
    refine (apply_ok htyped hlayout hpacked hreads hselection).trans
      (congrArg Except.ok (List.filter_congr fun row hrow => ?_))
    change compared.all (compares vector row) =
      compared.all fun g => g.op.holds (value row g.column) g.constant
    rw [Bool.eq_iff_iff, List.all_eq_true, List.all_eq_true]
    exact forall₂_congr fun g hg => by rw [compares, hvalue row hrow g hg]; rfl

/-- **Filters on integers keep their meaning when they are bound.**  Any conjunction of filters that
compare integer columns of a table with integers of any type, or with `NULL`, can be bound; of any
selection of rows of the columns it keeps, in their order, those that all filters pass, when the
values of a column and the constant are compared as integers and `NULL` as the operator says. -/
theorem narrow_eq (t : Table) (filters : List Filter) (h : ∀ f ∈ filters, OnIntegers t f) :
    ∃ bound, bind t filters = .ok bound ∧
      ∀ (vector : Nat → ValueVector) (count : Nat) (selection : Selection),
        Reads t filters vector count → (∀ row ∈ selection, row < count) →
        narrow bound vector count selection =
          .ok (selection.filter fun row => filters.all (passes vector row)) := by
  obtain ⟨bound, hbound, hmeans⟩ := bindEach_ok h
  rw [bind, hbound, ok_bind]
  dsimp only
  cases hnever : bound.any BoundFilter.isNever with
  | true =>
    refine ⟨some never, if_pos rfl, fun vector count selection hreads hselection => ?_⟩
    have hnone : selection.filter (fun row => filters.all (passes vector row)) = [] := by
      refine List.filter_eq_nil_iff.mpr fun row hrow => ?_
      rw [all_passes hmeans hreads (hselection row hrow), hnever]
      exact Bool.false_ne_true
    rw [hnone]
    rfl
  | false =>
    have hall : ∀ {vector : Nat → ValueVector} {count : Nat} {selection : Selection},
        Reads t filters vector count → (∀ row ∈ selection, row < count) →
        selection.filter (fun row => filters.all (passes vector row)) =
          selection.filter fun row => (bound.filterMap BoundFilter.filter?).all (compares vector row) := by
      intro vector count selection hreads hselection
      refine List.filter_congr fun row hrow => ?_
      rw [all_passes hmeans hreads (hselection row hrow), hnever]
      exact Bool.true_and _
    rw [if_neg Bool.false_ne_true]
    cases hcompared : bound.filterMap BoundFilter.filter? with
    | nil =>
      refine ⟨none, rfl, fun vector count selection hreads hselection => ?_⟩
      rw [hall hreads hselection, hcompared]
      exact congrArg Except.ok (List.filter_true selection).symm
    | cons g rest =>
      obtain ⟨types, htyped, hrange⟩ := typed_filterMap hmeans
      rw [hcompared] at htyped
      obtain ⟨packed, hconstants⟩ := constants_ok htyped hrange
      obtain ⟨-, hlayout, hpacked⟩ := htyped.of_constants hconstants
      refine ⟨some ⟨g :: rest, some (⟨(g :: rest).map (·.op)⟩, packed)⟩, ?_,
        fun vector count selection hreads hselection => ?_⟩
      · rw [List.isEmpty_cons, if_neg Bool.false_ne_true, hconstants]
        rfl
      · have hleft := reads_filterMap hmeans hreads
        rw [hcompared] at hleft
        have hcolumns : (BoundFilters.columns ⟨g :: rest,
            some (⟨(g :: rest).map (·.op)⟩, packed)⟩).map vector =
            (g :: rest).map fun g => vector g.column := List.map_map
        rw [hall hreads hselection, hcompared, narrow, hcolumns]
        exact apply_ok htyped hlayout hpacked hleft hselection

/-- An empty table of small and large integers. -/
def numbers : Table where
  name := "numbers"
  definitions := [⟨"small", .tinyInt⟩, ⟨"large", .uBigInt⟩]
  policy := { capacity := 4, compression := .uncompressed }
  columns := []
  versions := {}

/-- Rows of such a table, the second of which has `NULL` for a small integer. -/
def someNumbers : Nat → ValueVector
  | 0 => .flat .tinyInt ⟨4, some ((Array.replicate 64 true).setIfInBounds 1 false)⟩
    #[.tinyInt 5, .tinyInt 0, .tinyInt (-7), .tinyInt 9]
  | _ => .flat .uBigInt ⟨4, none⟩ #[.uBigInt 3, .uBigInt 0, .uBigInt 12, .uBigInt 1]

/-- Constants above, below and in the range of the columns. -/
def rangeFilters : List Filter :=
  [⟨0, .lessThan, .smallInt 300⟩, ⟨0, .distinctFrom, .bigInt (-300)⟩, ⟨1, .greaterThan, .integer (-1)⟩,
    ⟨1, .notEqual, .tinyInt 12⟩]

/-- `NULL` is not below a large constant, and twelve is twelve. -/
theorem narrow_numbers : ∃ bound, bind numbers rangeFilters = .ok bound ∧
    narrow bound someNumbers 4 [3, 1, 0, 2, 0] = .ok [3, 0, 0] := by
  have hints : ∀ f ∈ rangeFilters, OnIntegers numbers f := by
    simp only [rangeFilters, List.forall_mem_cons]
    exact ⟨⟨⟨_, rfl, rfl⟩, .inr ⟨_, rfl⟩⟩, ⟨⟨_, rfl, rfl⟩, .inr ⟨_, rfl⟩⟩, ⟨⟨_, rfl, rfl⟩, .inr ⟨_, rfl⟩⟩,
      ⟨⟨_, rfl, rfl⟩, .inr ⟨_, rfl⟩⟩, fun _ h => absurd h List.not_mem_nil⟩
  have hsmall : (someNumbers 0).Sound := by
    refine ⟨rfl, ?_, rfl, by decide⟩
    rintro _ ⟨⟩
    rfl
  have hlarge : (someNumbers 1).Sound := ⟨rfl, nofun, rfl, by decide⟩
  have hreads : Reads numbers rangeFilters someNumbers 4 := by
    simp only [Reads, rangeFilters, List.forall_mem_cons]
    exact ⟨⟨hsmall, rfl, by decide⟩, ⟨hsmall, rfl, by decide⟩, ⟨hlarge, rfl, by decide⟩,
      ⟨hlarge, rfl, by decide⟩, fun _ h => absurd h List.not_mem_nil⟩
  obtain ⟨bound, hbound, h⟩ := narrow_eq numbers rangeFilters hints
  refine ⟨bound, hbound, (h someNumbers 4 [3, 1, 0, 2, 0] hreads (by decide)).trans ?_⟩
  exact congrArg Except.ok (by decide +kernel)

end BoundFilters
end ColumnStore
