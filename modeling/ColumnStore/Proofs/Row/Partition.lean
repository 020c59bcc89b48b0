/-
# A matcher partitions a selection

A matcher that goes with the layout of some packed rows keeps, of any selection of the rows of a chunk,
the rows for which every operator holds between the value in the chunk and the one in the packed row,
in their order, and lists every other one once, behind the first operator that does not hold.  What it
does depends on the values alone: not on how `NULL`s are marked, and for the rows that it keeps not on
the order of the columns (`Matcher.run_partitions`).
-/

import ColumnStore.Proofs.Row.Appending
import ColumnStore.Proofs.Row.Matching
import ColumnStore.Proofs.Vector.Slices

namespace ColumnStore

/-- Packed rows that hold the same values in columns of another order. -/
structure PackedRows.Reorders (p p' : PackedRows) (order : List Nat) : Prop where
  legible : p'.Legible
  types : order.mapM (p.layout.types[·]?) = some p'.layout.types
  size : p'.size = p.size
  get?_eq : ∀ row < p.size, ∀ k i : Nat, order[k]? = some i → p'.get? row k = p.get? row i

namespace Matcher

/-- Whether the operator of a column holds between the value of a row of a chunk and that of the
packed row that is paired with it. -/
def admits (ops : List Comparison) (c : Chunk) (p : PackedRows) (pointers : List Nat)
    (column row : Nat) : Bool :=
  match ops[column]?, c.get? column row, pointers[row]?.bind (p.get? · column) with
  | some op, some x, some y => op.holds x y
  | _, _, _ => false

section Runs

variable {p : PackedRows} {ops : List Comparison} {c : Chunk} {pointers : List Nat} {m : Matching}

/-- Rows of a chunk that are paired with packed rows. -/
def Paired (c : Chunk) (p : PackedRows) (pointers : List Nat) (s : Selection) : Prop :=
  ∀ row ∈ s, row < c.cardinality ∧ ∃ q < p.size, pointers[row]? = some q

instance (c : Chunk) (p : PackedRows) (pointers : List Nat) (s : Selection) :
    Decidable (Paired c p pointers s) :=
  inferInstanceAs (Decidable (∀ row ∈ s, row < c.cardinality ∧ ∃ q < p.size, pointers[row]? = some q))

/-- **A matcher runs** on any selection of the rows of a sound chunk that are paired with packed rows
of its types. -/
theorem run_eq (hp : p.Legible) (hlen : ops.length = p.layout.types.length) (hc : c.Sound)
    (htypes : c.types = p.layout.types) (hrows : Paired c p pointers m.selected) :
    run ⟨ops⟩ c p pointers m =
      (.ok (survivors (admits ops c p pointers) ops.length m.selected).length,
        ⟨survivors (admits ops c p pointers) ops.length m.selected,
          m.rejected ++ rejections (admits ops c p pointers) ops.length m.selected⟩) := by
  have hcolumns : c.columns.length = p.layout.types.length := by
    rw [← htypes, Chunk.types, List.length_map]
  refine runColumns_eq (admits ops c p pointers) (Nat.le_of_eq hcolumns.symm) fun k op hop => ?_
  have hk : k < c.columns.length := by
    rw [hcolumns, ← hlen]
    exact (List.getElem?_eq_some_iff.mp hop).1
  have hv : c.columns[k]? = some c.columns[k] := List.getElem?_eq_getElem hk
  have ht : p.layout.types[k]? = some c.columns[k].type := by
    rw [← htypes, Chunk.types, List.getElem?_map, hv]
    rfl
  refine ⟨_, hv, ht, fun row hrow => ?_⟩
  obtain ⟨hrow, q, hq, hpointer⟩ := hrows row hrow
  obtain ⟨i, x, hslot, hi, hx, hget⟩ := hc.get?_ok hrow hv
  obtain ⟨y, hvalid, hy, hfit⟩ := hp.read hq ht
  have hholds := holds?_eq op (hc.columns _ (List.getElem_mem hk)) hi hx hvalid hy hfit
  rw [admits, hop, hget, hpointer, Option.bind_some, hy, ← hholds]
  rw [Chunk.slot?] at hslot
  cases hselection : c.selection with
  | none =>
    rw [hselection] at hslot
    obtain rfl : row = i := Option.some.inj hslot
    simp [test, hpointer]
  | some s =>
    rw [hselection] at hslot
    simp [test, hpointer, hslot]

theorem survivors_congr {kept kept' : Nat → Nat → Bool} {n : Nat} {s : Selection}
    (h : ∀ k < n, ∀ row ∈ s, kept k row = kept' k row) : survivors kept n s = survivors kept' n s := by
  refine List.filter_congr fun row hrow => ?_
  rw [Bool.eq_iff_iff, List.all_eq_true, List.all_eq_true]
  exact forall₂_congr fun k hk => by rw [h k (List.mem_range.mp hk) row hrow]

theorem rejections_congr {kept kept' : Nat → Nat → Bool} {n : Nat} {s : Selection}
    (h : ∀ k < n, ∀ row ∈ s, kept k row = kept' k row) :
    rejections kept n s = rejections kept' n s := by
  refine List.flatMap_congr fun k hk => ?_
  have hk := List.mem_range.mp hk
  rw [survivors_congr fun j hj => h j (Nat.lt_trans hj hk)]
  exact List.filter_congr fun row hrow =>
    congrArg (!·) (h k hk row (List.mem_of_mem_filter hrow))

/-- **The order of the columns does not matter** for the rows that survive. -/
theorem survivors_reorder {kept kept' : Nat → Nat → Bool} {n : Nat} {s : Selection}
    {order : List Nat} (horder : order.Perm (List.range n))
    (h : ∀ k i, order[k]? = some i → ∀ row ∈ s, kept' k row = kept i row) :
    survivors kept' order.length s = survivors kept n s := by
  refine List.filter_congr fun row hrow => ?_
  rw [← horder.all_eq, Bool.eq_iff_iff, List.all_eq_true, List.all_eq_true]
  constructor
  · intro hall i hi
    obtain ⟨k, hk, rfl⟩ := List.mem_iff_getElem.mp hi
    rw [← h k _ (List.getElem?_eq_getElem hk) row hrow]
    exact hall k (List.mem_range.mpr hk)
  · intro hall k hk
    have hk := List.mem_range.mp hk
    rw [h k _ (List.getElem?_eq_getElem hk) row hrow]
    exact hall _ (List.getElem_mem hk)

/-- **Marks are not told apart** when they say the same. -/
theorem run_remark (hp : p.Legible) (hlen : ops.length = p.layout.types.length) (hc : c.Sound)
    (htypes : c.types = p.layout.types) (hrows : Paired c p pointers m.selected)
    {columns : List ValueVector} (hmarked : List.Forall₂ ValueVector.Remarked c.columns columns) :
    run ⟨ops⟩ { c with columns } p pointers m = run ⟨ops⟩ c p pointers m := by
  obtain ⟨hsound, htypes'⟩ := hc.remark hmarked
  have hadmits : ∀ k < ops.length, ∀ row ∈ m.selected,
      admits ops { c with columns } p pointers k row = admits ops c p pointers k row := by
    intro k _ row hrow
    rw [admits, admits, hc.get?_remark hmarked (hrows row hrow).1]
  rw [run_eq hp hlen hc htypes hrows, run_eq hp hlen hsound (htypes'.trans htypes) hrows,
    survivors_congr hadmits, rejections_congr hadmits]

/-- Operators go with types in any order. -/
theorem supports_reorder {types types' : List ColumnType} {order : List Nat}
    {ops' : List Comparison}
    (h : List.Forall₂ (fun op t => supports op t = .ok ()) ops types)
    (hops : order.mapM (ops[·]?) = some ops') (htypes : order.mapM (types[·]?) = some types') :
    List.Forall₂ (fun op t => supports op t = .ok ()) ops' types' := by
  obtain ⟨hlen, hop⟩ := getElem?_of_mapM hops
  obtain ⟨hlen', ht⟩ := getElem?_of_mapM htypes
  rw [List.forall₂_iff_get]
  refine ⟨hlen.trans hlen'.symm, fun k hk hk' => ?_⟩
  have horder : order[k]? = some order[k] := List.getElem?_eq_getElem (hlen ▸ hk)
  have hop := hop k _ horder
  have ht := ht k _ horder
  rw [List.getElem?_eq_getElem hk] at hop
  rw [List.getElem?_eq_getElem hk'] at ht
  obtain ⟨hi, hop⟩ := List.getElem?_eq_some_iff.mp hop.symm
  obtain ⟨hi', ht⟩ := List.getElem?_eq_some_iff.mp ht.symm
  rw [List.get_eq_getElem, List.get_eq_getElem, ← hop, ← ht]
  exact h.get hi hi'

/-- **Columns in another order** keep the same rows. -/
theorem run_reorder {matcher : Matcher} (hnew : new p.layout ops = .ok matcher) (hc : c.Sound)
    (htypes : c.types = p.layout.types) (hrows : Paired c p pointers m.selected)
    {order : List Nat} (horder : order.Perm (List.range ops.length)) {ops' : List Comparison}
    (hops : order.mapM (ops[·]?) = some ops') {c' : Chunk} (hproject : c.project? order = some c')
    {p' : PackedRows} (hp' : p.Reorders p' order) :
    ∃ matcher', new p'.layout ops' = .ok matcher' ∧
      run matcher' c' p' pointers m =
        (.ok (survivors (admits ops c p pointers) ops.length m.selected).length,
          ⟨survivors (admits ops c p pointers) ops.length m.selected,
            m.rejected ++ rejections (admits ops' c' p' pointers) ops.length m.selected⟩) := by
  have hsupports := supports_reorder (new_eq_ok.mp hnew).2 hops hp'.types
  have hlen : order.length = ops.length := by rw [horder.length_eq, List.length_range]
  obtain ⟨hlen', hop⟩ := getElem?_of_mapM hops
  have htypes' : c'.types = p'.layout.types := by
    have hpicked := Chunk.types_project? hproject
    rw [htypes, hp'.types] at hpicked
    exact (Option.some.inj hpicked).symm
  have hrows' : Paired c' p' pointers m.selected := by
    obtain ⟨_, -, rfl⟩ := Chunk.eq_of_project? hproject
    rw [Paired, hp'.size]
    exact hrows
  have hadmits : ∀ k i, order[k]? = some i → ∀ row ∈ m.selected,
      admits ops' c' p' pointers k row = admits ops c p pointers i row := by
    intro k i hk row hrow
    obtain ⟨-, q, hq, hpointer⟩ := hrows row hrow
    rw [admits, admits, hop k i hk, Chunk.get?_project? hproject hk, hpointer, Option.bind_some,
      Option.bind_some, hp'.get?_eq q hq k i hk]
  have hrun := run_eq hp'.legible hsupports.length_eq (hc.project? hproject) htypes' hrows'
  rw [hlen', survivors_reorder horder hadmits, hlen] at hrun
  exact ⟨⟨ops'⟩, new_eq_ok.mpr ⟨rfl, hsupports⟩, hrun⟩

/-- **A matcher partitions a selection.**  Let a matcher go with the layout of packed rows, and let a
selection, in any order and with repetitions, list rows of a chunk of these types that are paired with
packed rows.

* What stays selected is, in order, every occurrence of a row for which all operators hold between the
  values of the chunk and those of the packed row, and their number is given.  Behind the rows that
  were rejected before come those for which the first operator does not hold, then those for which the
  first holds and the second does not, and so on, each in order; together they are the selection.
* The outcome is the same for columns with other marks that say the same, also when one keeps marks
  and the other does not.
* With the columns of the chunk and of the packed rows and the operators in another order a matcher is
  made too, and the same rows stay selected. -/
theorem run_partitions {matcher : Matcher} (hnew : new p.layout ops = .ok matcher) (hp : p.Legible)
    (hc : c.Sound) (htypes : c.types = p.layout.types) (hrows : Paired c p pointers m.selected) :
    (run matcher c p pointers m =
        (.ok (survivors (admits ops c p pointers) ops.length m.selected).length,
          ⟨survivors (admits ops c p pointers) ops.length m.selected,
            m.rejected ++ rejections (admits ops c p pointers) ops.length m.selected⟩) ∧
      (survivors (admits ops c p pointers) ops.length m.selected ++
        rejections (admits ops c p pointers) ops.length m.selected).Perm m.selected) ∧
    (∀ columns, List.Forall₂ ValueVector.Remarked c.columns columns →
      run matcher { c with columns } p pointers m = run matcher c p pointers m) ∧
    (∀ order : List Nat, order.Perm (List.range ops.length) →
      ∀ ops' c' p', order.mapM (ops[·]?) = some ops' → c.project? order = some c' →
        p.Reorders p' order → ∃ matcher', new p'.layout ops' = .ok matcher' ∧
          (run matcher' c' p' pointers m).1 = (run matcher c p pointers m).1 ∧
          (run matcher' c' p' pointers m).2.selected = (run matcher c p pointers m).2.selected) := by
  obtain ⟨rfl, hsupports⟩ := new_eq_ok.mp hnew
  have hlen := hsupports.length_eq
  have hrun := run_eq hp hlen hc htypes hrows
  refine ⟨⟨hrun, survivors_append_rejections_perm _ _ _⟩,
    fun columns => run_remark hp hlen hc htypes hrows, ?_⟩
  intro order horder ops' c' p' hops hproject hp'
  obtain ⟨matcher', hnew', hrun'⟩ := run_reorder hnew hc htypes hrows horder hops hproject hp'
  exact ⟨matcher', hnew', by rw [hrun', hrun], by rw [hrun', hrun]⟩

end Runs

/-- Four slots with a `NULL` among the integers, of which a selection makes five rows. -/
def slicedChunk : Chunk where
  columns :=
    [.flat .integer ⟨4, some ((Array.replicate 64 true).setIfInBounds 1 false)⟩
        #[.integer 5, .integer 0, .integer 1, .integer 3],
      .flat .boolean (.new 4) #[.boolean true, .boolean false, .boolean true, .boolean false]]
  cardinality := 5
  capacity := 4
  selection := some [3, 1, 0, 2, 0]

/-- A row of `3` and true, and one of `NULL`s. -/
def packedPair : PackedRows where
  layout := ⟨[.integer, .boolean]⟩
  size := 2
  bytes := [3, 3, 0, 0, 0, 1, 0, 0, 0, 0, 0, 0]

/-- The same rows with their columns exchanged. -/
def swappedPair : PackedRows where
  layout := ⟨[.boolean, .integer]⟩
  size := 2
  bytes := [3, 1, 3, 0, 0, 0, 0, 0, 0, 0, 0, 0]

theorem slicedChunk_sound : slicedChunk.Sound := by
  refine ⟨?_, ?_⟩
  · refine List.forall_mem_cons.mpr ⟨⟨rfl, ?_, rfl, ?_⟩, List.forall_mem_singleton.mpr
      ⟨rfl, Validity.sound_new 4, rfl, ?_⟩⟩
    · rintro _ ⟨⟩
      rfl
    · decide
    · decide
  · decide

/-- Two rows that were added to none are legible. -/
theorem legible_of_two {l : RowLayout} {first second : Row} {p q : PackedRows}
    (hplain : ∀ t ∈ l.types, t.isNested = false)
    (hfirst : PackedRows.appendRow { layout := l } first = (.ok 0, p))
    (hsecond : p.appendRow second = (.ok 1, q)) : q.Legible :=
  ⟨_, (((PackedRows.records_new hplain).of_appendRow hfirst).of_appendRow hsecond).packs⟩

theorem packedPair_legible : packedPair.Legible :=
  @legible_of_two ⟨[.integer, .boolean]⟩ [.integer 3, .boolean true] [.null, .null]
    ⟨⟨[.integer, .boolean]⟩, 1, [3, 3, 0, 0, 0, 1], []⟩ packedPair (by decide) rfl rfl

theorem swappedPair_reorders : packedPair.Reorders swappedPair [1, 0] where
  legible := @legible_of_two ⟨[.boolean, .integer]⟩ [.boolean true, .integer 3] [.null, .null]
    ⟨⟨[.boolean, .integer]⟩, 1, [3, 1, 3, 0, 0, 0], []⟩ swappedPair (by decide) rfl rfl
  types := rfl
  size := rfl
  get?_eq := by
    have hall : ∀ row < 2, swappedPair.get? row 0 = packedPair.get? row 1 ∧
        swappedPair.get? row 1 = packedPair.get? row 0 := by
      intro row hrow
      obtain rfl | rfl : row = 0 ∨ row = 1 := by omega
      · exact ⟨rfl, rfl⟩
      · exact ⟨rfl, rfl⟩
    intro row hrow k i hi
    obtain ⟨hk, rfl⟩ := List.getElem?_eq_some_iff.mp hi
    obtain rfl | rfl : k = 0 ∨ k = 1 := by
      simp only [List.length_cons, List.length_nil] at hk
      omega
    · exact (hall row hrow).1
    · exact (hall row hrow).2

/-- The columns of the sliced chunk with marks for all booleans, none of which is `NULL`. -/
def remarkedColumns : List ValueVector :=
  [.flat .integer ⟨4, some ((Array.replicate 64 true).setIfInBounds 1 false)⟩
      #[.integer 5, .integer 0, .integer 1, .integer 3],
    .flat .boolean ⟨4, some (Array.replicate 64 true)⟩
      #[.boolean true, .boolean false, .boolean true, .boolean false]]

theorem slicedChunk_remarked :
    List.Forall₂ ValueVector.Remarked slicedChunk.columns remarkedColumns := by
  have hagrees : (Validity.new 4).Agrees ⟨4, some (Array.replicate 64 true)⟩ :=
    Validity.agrees_of_setNull? (Validity.sound_new 4) (i := 0) (by decide) rfl rfl rfl
  refine .cons ⟨_, Validity.Agrees.refl ?_, rfl⟩ (.cons ⟨_, hagrees, rfl⟩ .nil)
  rintro _ ⟨⟩
  rfl

/-- Rows of a sliced chunk, one of them twice, some paired with `NULL`s: the row `2` is kept both
times, with marks for the booleans and without, and also when the booleans are compared first. -/
theorem run_partitions_sliced :
    run ⟨[.greaterThanOrEqual, .equal]⟩ slicedChunk packedPair [0, 1, 0, 0, 1]
        ⟨[4, 0, 2, 2, 1, 3, 0], [7]⟩ = (.ok 2, ⟨[2, 2], [7, 4, 1, 3, 0, 0]⟩) ∧
      run ⟨[.greaterThanOrEqual, .equal]⟩ { slicedChunk with columns := remarkedColumns } packedPair
        [0, 1, 0, 0, 1] ⟨[4, 0, 2, 2, 1, 3, 0], [7]⟩ = (.ok 2, ⟨[2, 2], [7, 4, 1, 3, 0, 0]⟩) ∧
      ∃ matcher c', new swappedPair.layout [.equal, .greaterThanOrEqual] = .ok matcher ∧
        slicedChunk.project? [1, 0] = some c' ∧
        (run matcher c' swappedPair [0, 1, 0, 0, 1] ⟨[4, 0, 2, 2, 1, 3, 0], [7]⟩).2.selected =
          [2, 2] := by
  obtain ⟨⟨hrun, -⟩, hremark, hreorder⟩ := @run_partitions packedPair
    [.greaterThanOrEqual, .equal] slicedChunk [0, 1, 0, 0, 1] ⟨[4, 0, 2, 2, 1, 3, 0], [7]⟩
    ⟨[.greaterThanOrEqual, .equal]⟩ rfl packedPair_legible slicedChunk_sound rfl (by decide)
  obtain ⟨matcher, hnew, -, hselected⟩ := hreorder [1, 0] (by decide) _ _ _ rfl rfl
    swappedPair_reorders
  exact ⟨hrun.trans rfl, (hremark _ slicedChunk_remarked).trans (hrun.trans rfl), matcher, _, hnew,
    rfl, hselected.trans (congrArg (·.2.selected) (hrun.trans rfl))⟩

end Matcher
end ColumnStore
