/-
# What a matcher keeps

A matcher is made of an operator for each column that goes with its type (`Matcher.new_eq_ok`).  A slot of a vector is compared with a column of a packed row as the two values are
(`Matcher.holds?_eq`).  A column sifts a selection in place (`Matcher.divide_eq`).  So a matcher keeps
the rows of a selection for which all comparisons hold, in their order, and lists the others behind
the first comparison that does not hold (`Matcher.runColumns_eq`).  The types of the columns are
looked at on the way, so a column of another type shows only when a row is left for it, and then the
columns before it have sifted the selection (`Matcher.runColumns_of_mismatch`).
-/

import ColumnStore.Proofs.Segment.Bounds
import ColumnStore.Proofs.Segment.Encoding
import ColumnStore.Row.Matcher

namespace ColumnStore
namespace Matcher

/-! ## Operators that go with a layout -/

theorem checkAll_eq_ok {ops : List Comparison} {types : List ColumnType}
    (hlen : ops.length = types.length) :
    checkAll ops types = .ok () ↔ List.Forall₂ (fun op t => supports op t = .ok ()) ops types := by
  induction ops generalizing types with
  | nil =>
    obtain rfl := List.eq_nil_of_length_eq_zero hlen.symm
    exact ⟨fun _ => .nil, fun _ => rfl⟩
  | cons op ops ih =>
    cases types with
    | nil => cases hlen
    | cons t types =>
      rw [List.forall₂_cons, ← ih (Nat.succ.inj hlen), checkAll, bind_eq_ok]
      exact ⟨fun ⟨_, h⟩ => h, fun h => ⟨(), h⟩⟩

/-- **A matcher is made** of one operator per column, each of which goes with the type. -/
theorem new_eq_ok {layout : RowLayout} {ops : List Comparison} {matcher : Matcher} :
    new layout ops = .ok matcher ↔ matcher = ⟨ops⟩ ∧
      List.Forall₂ (fun op t => supports op t = .ok ()) ops layout.types := by
  rw [new]
  dsimp only
  by_cases hlen : ops.length = layout.types.length
  · rw [if_pos hlen, ← checkAll_eq_ok hlen]
    constructor
    · intro h
      obtain ⟨_, hcheck, h⟩ := bind_eq_ok.mp h
      exact ⟨(Except.ok.inj h).symm, hcheck⟩
    · rintro ⟨rfl, hcheck⟩
      rw [hcheck]
      rfl
  · rw [if_neg hlen]
    refine ⟨fun h => ?_, fun h => absurd h.2.length_eq hlen⟩
    cases h

/-! ## Sifting -/

/-- A row is written behind those that were kept: over the first one in the gap, which is then behind
the row in a gap that is as long, or over itself. -/
theorem toList_write {rows : Array Nat} {done gap rest : Selection} {row : Nat}
    (h : rows.toList = done ++ gap ++ row :: rest) :
    ∃ gap' : Selection, gap'.length = gap.length ∧
      (rows.setIfInBounds done.length row).toList = done ++ [row] ++ gap' ++ rest := by
  rw [Array.toList_setIfInBounds, h]
  cases gap with
  | nil => exact ⟨[], rfl, by simp⟩
  | cons first gap => exact ⟨gap ++ [row], by simp, by simp⟩

/-- **A selection is sifted in place.**  In front are the rows that were kept, then a gap of rows that
were read, and then those that are still to be read. -/
theorem sift_eq {test : Nat → Option Bool} {kept : Nat → Bool} {rest : Selection}
    (h : ∀ row ∈ rest, test row = some (kept row)) (done gap : Selection) (rows : Array Nat)
    (hrows : rows.toList = done ++ gap ++ rest) (rejected : Array Nat) :
    ∃ rows', sift test rest.length (done.length + gap.length) done.length rows rejected =
        some ((done ++ rest.filter kept).length, rows',
          rejected ++ (rest.filter fun row => !kept row).toArray) ∧
      rows'.toList.take (done ++ rest.filter kept).length = done ++ rest.filter kept := by
  induction rest generalizing done gap rows rejected with
  | nil =>
    refine ⟨rows, by simp [sift], ?_⟩
    rw [hrows, List.append_assoc, List.filter_nil, List.append_nil, List.take_left]
  | cons row rest ih =>
    have hread : rows[done.length + gap.length]? = some row := by
      rw [← Array.getElem?_toList, hrows, ← List.length_append,
        List.getElem?_append_right (Nat.le_refl _), Nat.sub_self, List.getElem?_cons_zero]
    have hnext := fun r hr => h r (List.mem_cons_of_mem _ hr)
    have hstep := h row List.mem_cons_self
    cases hk : kept row with
    | true =>
      obtain ⟨gap', hlen, hrows'⟩ := toList_write hrows
      obtain ⟨rows', hsift, htake⟩ := ih hnext (done ++ [row]) gap' _ hrows' rejected
      refine ⟨rows', ?_, ?_⟩
      · rw [List.length_append, List.length_singleton, hlen, Nat.add_right_comm] at hsift
        simpa [sift, hread, hstep, hk] using hsift
      · simpa [hk] using htake
    | false =>
      obtain ⟨rows', hsift, htake⟩ := ih hnext done (gap ++ [row]) rows
        (by rw [hrows, List.append_cons, List.append_assoc done]) (rejected.push row)
      refine ⟨rows', ?_, ?_⟩
      · rw [List.length_append, List.length_singleton, ← Nat.add_assoc] at hsift
        simpa [sift, hread, hstep, hk] using hsift
      · simpa [hk] using htake

/-- **A selection is divided** by what the test tells of each of its rows. -/
theorem divide_eq {test : Nat → Option Bool} {kept : Nat → Bool} {s : Selection}
    (h : ∀ row ∈ s, test row = some (kept row)) :
    divide test s = some (s.filter kept, s.filter fun row => !kept row) := by
  obtain ⟨rows, hsift, htake⟩ := sift_eq h [] [] s.toArray rfl #[]
  rw [List.length_nil, Nat.add_zero, List.nil_append] at hsift
  rw [List.nil_append] at htake
  simp [divide, hsift, htake]

/-- **Marks that are not kept** are read as if each of them said valid. -/
theorem holds?_of_mark (op : Comparison) {v : ValueVector} {i : Nat} {left : Bool}
    (hmark : v.validity.get? i = some left) (p : PackedRows) (row column : Nat) :
    holds? op v i p row column = (p.isValid? row column).bind fun right =>
      if left && right then compares? op v i p row column
      else some (op.onNulls (!left) (!right)) := by
  rw [holds?]
  refine congrArg (Option.bind _) (funext fun right => ?_)
  cases hall : v.validity.allValid with
  | true =>
    have hnone : v.validity.marks = none := Option.isNone_iff_eq_none.mp hall
    rw [Validity.get?, hnone] at hmark
    obtain rfl : true = left := Option.some.inj hmark
    cases right <;> rfl
  | false => simp [hmark]

/-- **A slot is compared** with the value of a packed row. -/
theorem holds?_eq (op : Comparison) {v : ValueVector} {i : Nat} {p : PackedRows} {row column : Nat}
    {x y : Scalar} (hv : v.Sound) (hi : i < v.capacity) (hx : v.get? i = some x)
    (hvalid : p.isValid? row column = some !y.isNull) (hy : p.get? row column = some y)
    (hfit : y.fits v.type = true) : holds? op v i p row column = some (op.holds x y) := by
  have hmark := SegmentImage.get?_of_sound hv hi hx
  have hraw : x.isNull = false → v.raw? i = some x := by
    intro hn
    rw [ValueVector.get?, hmark, hn] at hx
    exact hx
  rw [holds?_of_mark op hmark, hvalid, Option.bind_some, Comparison.holds]
  cases hxn : x.isNull with
  | true => simp
  | false =>
    cases hyn : y.isNull with
    | true => simp
    | false =>
      obtain ⟨o, ho⟩ := Scalar.order?_of_fits x (hv.typed i x hx) hfit hxn hyn
      simp [compares?, hraw hxn, hy, ho]

/-- The comparison of a column of a matcher with the packed row of a row of the selection. -/
def test (p : PackedRows) (pointers : List Nat) (slots : Option Selection) (v : ValueVector)
    (op : Comparison) (column row : Nat) : Option Bool :=
  match slots with
  | some s => do
    let i ← s[row]?
    let packed ← pointers[row]?
    holds? op v i p packed column
  | none => do
    let packed ← pointers[row]?
    holds? op v row p packed column

/-- A matcher can tell of each row of a selection whether it is kept in a column. -/
structure Tells (p : PackedRows) (pointers : List Nat) (slots : Option Selection)
    (columns : List ValueVector) (kept : Nat → Nat → Bool) (selection : Selection) (column : Nat)
    (op : Comparison) : Prop where
  compared : ∃ v, columns[column]? = some v ∧ p.layout.types[column]? = some v.type ∧
    ∀ row ∈ selection, test p pointers slots v op column row = some (kept column row)

/-- The rows of a selection that all of the first columns keep. -/
def survivors (kept : Nat → Nat → Bool) (columns : Nat) (s : Selection) : Selection :=
  s.filter fun row => (List.range columns).all fun k => kept k row

/-- The other rows of a selection: those that the first column does not keep, then those that the
second one does not keep of the rest, and so on, each in their order. -/
def rejections (kept : Nat → Nat → Bool) (columns : Nat) (s : Selection) : Selection :=
  (List.range columns).flatMap fun k => (survivors kept k s).filter fun row => !kept k row

variable {kept : Nat → Nat → Bool} {s : Selection}

@[simp] theorem survivors_zero : survivors kept 0 s = s := by simp [survivors]

@[simp] theorem survivors_nil (n : Nat) : survivors kept n [] = [] := rfl

@[simp] theorem rejections_nil (n : Nat) : rejections kept n [] = [] := by simp [rejections]

/-- The first column is applied first. -/
theorem survivors_succ (n : Nat) : survivors kept (n + 1) s =
    survivors (fun k => kept (k + 1)) n (s.filter (kept 0)) := by
  rw [survivors, survivors, List.filter_filter]
  refine List.filter_congr fun row _ => ?_
  rw [List.range_succ_eq_map, List.all_cons, List.all_map, Bool.and_comm]
  rfl

theorem rejections_succ (n : Nat) : rejections kept (n + 1) s =
    (s.filter fun row => !kept 0 row) ++
      rejections (fun k => kept (k + 1)) n (s.filter (kept 0)) := by
  rw [rejections, List.range_succ_eq_map, List.flatMap_cons, List.flatMap_map, survivors_zero]
  refine congrArg (_ ++ ·) (List.flatMap_congr fun k _ => ?_)
  rw [survivors_succ]

/-- **A selection is partitioned** into the rows that survive and those that are rejected. -/
theorem survivors_append_rejections_perm (kept : Nat → Nat → Bool) (n : Nat) (s : Selection) :
    (survivors kept n s ++ rejections kept n s).Perm s := by
  induction n generalizing kept s with
  | zero => simp [rejections]
  | succ n ih =>
    rw [survivors_succ, rejections_succ]
    have hswap := List.perm_append_comm_assoc
      (survivors (fun k => kept (k + 1)) n (s.filter (kept 0))) (s.filter fun row => !kept 0 row)
      (rejections (fun k => kept (k + 1)) n (s.filter (kept 0)))
    refine hswap.trans (((ih _ _).append_left _).trans ?_)
    exact List.perm_append_comm.trans (List.filter_append_perm (kept 0) s)

section Runs

variable {p : PackedRows} {pointers : List Nat} {slots : Option Selection}
  {columns : List ValueVector}

/-- **The operators are applied** one after the other, from a column on. -/
theorem runFrom_eq {ops : List Comparison} (column : Nat) (m : Matching)
    (h : ∀ k op, ops[k]? = some op →
      Tells p pointers slots columns kept m.selected (column + k) op) :
    runFrom p pointers slots columns column ops m =
      (.ok (survivors (fun k => kept (column + k)) ops.length m.selected).length,
        ⟨survivors (fun k => kept (column + k)) ops.length m.selected,
          m.rejected ++ rejections (fun k => kept (column + k)) ops.length m.selected⟩) := by
  induction ops generalizing column m with
  | nil => simp [runFrom, rejections]
  | cons op ops ih =>
    rw [runFrom]
    cases hempty : m.selected with
    | nil =>
      obtain ⟨selected, rejected⟩ := m
      obtain rfl : selected = [] := hempty
      simp
    | cons row rest =>
      rw [List.isEmpty_cons, if_neg Bool.false_ne_true, ← hempty]
      obtain ⟨v, hv, ht, htest⟩ := (h 0 op rfl).compared
      rw [Nat.add_zero] at hv ht htest
      have hdivide : divide (test p pointers slots v op column) m.selected =
          some (m.selected.filter (kept column), m.selected.filter fun row => !kept column row) :=
        divide_eq htest
      have hrest := ih (column + 1) ⟨m.selected.filter (kept column),
          m.rejected ++ m.selected.filter fun row => !kept column row⟩ fun k op hop => by
        obtain ⟨v, hv, ht, htest⟩ := (h (k + 1) op hop).compared
        rw [show column + (k + 1) = column + 1 + k by omega] at hv ht htest
        exact ⟨v, hv, ht, fun row hrow => htest row (List.mem_of_mem_filter hrow)⟩
      have hshift : (fun k => kept (column + 1 + k)) = fun k => kept (column + (k + 1)) :=
        funext fun k => congrArg kept (by omega)
      rw [hshift] at hrest
      rw [hv, ht, List.length_cons, survivors_succ, rejections_succ, Nat.add_zero,
        ← List.append_assoc]
      dsimp only
      rw [if_pos rfl]
      generalize hd : divide _ m.selected = d
      obtain rfl := hd.symm.trans hdivide
      exact hrest

/-- **Operators are applied in two parts:** the second part goes on with the rows that the first one
keeps. -/
theorem runFrom_append (ops later : List Comparison) (column : Nat) (m : Matching) :
    runFrom p pointers slots columns column (ops ++ later) m =
      (runFrom p pointers slots columns column ops m).andThen fun _ m' =>
        runFrom p pointers slots columns (column + ops.length) later m' := by
  induction ops generalizing column m with
  | nil => rfl
  | cons op ops ih =>
    rw [List.cons_append, List.length_cons, Nat.add_comm ops.length, ← Nat.add_assoc]
    rw [runFrom, runFrom]
    by_cases hempty : m.selected.isEmpty = true
    · rw [if_pos hempty, if_pos hempty]
      cases later with
      | nil => simp [Attempt.andThen, runFrom, List.isEmpty_iff.mp hempty]
      | cons op later => rw [Attempt.andThen, runFrom, if_pos hempty]
    · rw [if_neg hempty, if_neg hempty]
      cases columns[column]? with
      | none => rfl
      | some v =>
        cases p.layout.types[column]? with
        | none => rfl
        | some t =>
          dsimp only
          by_cases ht : v.type = t
          · rw [if_pos ht, if_pos ht]
            generalize divide _ m.selected = parts
            cases parts with
            | none => rfl
            | some parts => exact ih _ _
          · rw [if_neg ht, if_neg ht]
            rfl

/-- A match that succeeds counts the rows that it leaves selected. -/
theorem runFrom_count {ops : List Comparison} {column count : Nat} {m m' : Matching}
    (h : runFrom p pointers slots columns column ops m = (.ok count, m')) :
    count = m'.selected.length := by
  induction ops generalizing column m with
  | nil => cases h; rfl
  | cons op ops ih =>
    rw [runFrom] at h
    by_cases hempty : m.selected.isEmpty = true
    · rw [if_pos hempty] at h
      cases h
      rw [List.isEmpty_iff.mp hempty, List.length_nil]
    · rw [if_neg hempty] at h
      cases hv : columns[column]? with
      | none => rw [hv] at h; cases h
      | some v =>
        cases ht : p.layout.types[column]? with
        | none => rw [hv, ht] at h; cases h
        | some t =>
          rw [hv, ht] at h
          dsimp only at h
          by_cases hsame : v.type = t
          · rw [if_pos hsame] at h
            generalize divide _ m.selected = parts at h
            cases parts with
            | none => cases h
            | some parts => exact ih h
          · rw [if_neg hsame] at h
            cases h

/-- **A column of another type is refused when its turn comes:** the columns before it are matched
first.  When they leave no row the match succeeds, and otherwise it fails with the selection that they
leave. -/
theorem runColumns_of_mismatch {matcher : Matcher} {column : Nat} {v : ValueVector} {t : ColumnType}
    (m : Matching) (hcolumns : p.layout.types.length ≤ columns.length)
    (hop : column < matcher.predicates.length) (hv : columns[column]? = some v)
    (ht : p.layout.types[column]? = some t) (hne : v.type ≠ t) :
    matcher.runColumns columns slots p pointers m =
      (Matcher.runColumns ⟨matcher.predicates.take column⟩ columns slots p pointers m).andThen
        fun count m' =>
          if count = 0 then (.ok 0, m')
          else (.error (.vector (.typeMismatch t v.type.render)), m') := by
  have hsplit : matcher.predicates = matcher.predicates.take column ++
      matcher.predicates[column] :: matcher.predicates.drop (column + 1) := by
    rw [← List.drop_eq_getElem_cons hop, List.take_append_drop]
  have hlen : (matcher.predicates.take column).length = column :=
    List.length_take_of_le (Nat.le_of_lt hop)
  rw [runColumns, if_neg (Nat.not_lt_of_le hcolumns), runColumns,
    if_neg (Nat.not_lt_of_le hcolumns), hsplit, runFrom_append, ← hsplit, hlen, Nat.zero_add]
  generalize hr : runFrom p pointers slots columns 0 (matcher.predicates.take column) m = r
  obtain ⟨result, m'⟩ := r
  cases result with
  | error e => rfl
  | ok count =>
    obtain rfl := runFrom_count hr
    rw [Attempt.andThen, Attempt.andThen, runFrom, hv, ht]
    cases hs : m'.selected with
    | nil => rfl
    | cons row rest => simp [hne]

/-- A first column of another type is refused before anything is changed, when a row is selected. -/
theorem runColumns_of_first_mismatch {matcher : Matcher} {v : ValueVector} {t : ColumnType}
    {m : Matching} (hcolumns : p.layout.types.length ≤ columns.length)
    (hop : matcher.predicates ≠ []) (hv : columns[0]? = some v)
    (ht : p.layout.types[0]? = some t) (hne : v.type ≠ t) (hm : m.selected ≠ []) :
    matcher.runColumns columns slots p pointers m =
      (.error (.vector (.typeMismatch t v.type.render)), m) := by
  rw [runColumns_of_mismatch m hcolumns (List.length_pos_of_ne_nil hop) hv ht hne, runColumns,
    if_neg (Nat.not_lt_of_le hcolumns), List.take_zero, runFrom, Attempt.andThen,
    if_neg (mt List.length_eq_zero_iff.mp hm)]

/-- **A matcher keeps the rows that all its operators keep,** and lists the others. -/
theorem runColumns_eq {matcher : Matcher} (kept : Nat → Nat → Bool) {m : Matching}
    (hcolumns : p.layout.types.length ≤ columns.length)
    (h : ∀ k op, matcher.predicates[k]? = some op →
      Tells p pointers slots columns kept m.selected k op) :
    matcher.runColumns columns slots p pointers m =
      (.ok (survivors kept matcher.predicates.length m.selected).length,
        ⟨survivors kept matcher.predicates.length m.selected,
          m.rejected ++ rejections kept matcher.predicates.length m.selected⟩) := by
  have hrun := runFrom_eq 0 m fun k op hop => by rw [Nat.zero_add]; exact h k op hop
  have hstart : (fun k => kept (0 + k)) = kept := funext fun k => congrArg kept (Nat.zero_add k)
  rw [hstart] at hrun
  rw [runColumns, if_neg (Nat.not_lt_of_le hcolumns)]
  exact hrun

end Runs

end Matcher
end ColumnStore
