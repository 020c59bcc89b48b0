/-
# A chunk is a list of rows

Next to a chunk stands a plain list of rows (`RowList`).  Every operation on the chunk is accepted where
the list accepts it, and does to the rows what it does to the list; an operation that is refused leaves
the rows as they were, whatever has been written into the columns by then (`Shows.follows`).  So a chunk
reads as its list after any operations (`Chunk.run_as_rows`).

The slots that a selection names are the ones in use (`Chunk.Shows`); all others may hold anything, as
they do after a slice, a reset or a row that was refused.
-/

import ColumnStore.Proofs.Vector.Reuse
import ColumnStore.Proofs.Vector.Slices

namespace ColumnStore

/-! ## Lists -/

section Lists

variable {α β γ ε : Type}

/-- Results that are all there, with what is known of each. -/
theorem exists_mapM_bind {f : α → Except ε β} {g : List β → γ} {R : α → β → Prop} {xs : List α}
    (h : ∀ x ∈ xs, ∃ y, f x = .ok y ∧ R x y) :
    ∃ ys, (xs.mapM f >>= fun ys => pure (g ys)) = Except.ok (g ys) ∧ List.Forall₂ R xs ys := by
  obtain ⟨ys, hys⟩ := exists_mapM_ok fun x hx => (h x hx).imp fun _ hy => hy.1
  refine ⟨ys, by rw [hys]; rfl, ?_⟩
  obtain ⟨hlen, hall⟩ := forall₂_iff_getElem?.mp (forall₂_of_mapM_ok hys)
  refine forall₂_iff_getElem?.mpr ⟨hlen, fun i x y hx hy => ?_⟩
  obtain ⟨y', hy', hR⟩ := h x (List.mem_of_getElem? hx)
  rwa [Except.ok.inj ((hall i x y hx hy).symm.trans hy')]

/-- Positions that a list has are picked out of it, and out of any list as long. -/
theorem exists_picked {xs : List α} {order : List Nat} (h : ∀ i ∈ order, i < xs.length) :
    ∃ picked, order.mapM (xs[·]?) = some picked :=
  exists_mapM_some fun i hi => ⟨xs.get ⟨i, h i hi⟩, List.getElem?_eq_getElem (h i hi)⟩

theorem lt_of_picked {xs picked : List α} {order : List Nat}
    (h : order.mapM (xs[·]?) = some picked) : ∀ i ∈ order, i < xs.length := fun i hi => by
  obtain ⟨x, -, hx⟩ := exists_mem_right_of_forall₂ (forall₂_of_mapM h) hi
  exact (List.getElem?_eq_some_iff.mp hx).1

/-- **What is related stays so** when the same positions are picked out of both lists. -/
theorem forall₂_picked {R : α → β → Prop} {xs xs' : List α} {ys ys' : List β} {order : List Nat}
    (h : List.Forall₂ R xs ys) (hx : order.mapM (xs[·]?) = some xs')
    (hy : order.mapM (ys[·]?) = some ys') : List.Forall₂ R xs' ys' := by
  obtain ⟨hxlen, hxs⟩ := getElem?_of_mapM hx
  obtain ⟨hylen, hys⟩ := getElem?_of_mapM hy
  refine forall₂_iff_getElem?.mpr ⟨hxlen.trans hylen.symm, fun k x y hkx hky => ?_⟩
  have hk : k < order.length := hxlen ▸ (List.getElem?_eq_some_iff.mp hkx).1
  have hi := List.getElem?_eq_getElem hk
  rw [hxs k _ hi] at hkx
  rw [hys k _ hi] at hky
  exact (forall₂_iff_getElem?.mp h).2 _ x y hkx hky

end Lists

/-! ## Operations -/

/-- A plain list of rows, with the types of their columns. -/
structure RowList where
  types : List ColumnType
  rows : List Row

namespace Chunk

/-- An operation on a chunk. -/
inductive Edit where
  | append (row : Row)
  | slice (rows : Selection)
  | flatten
  | project (columns : List Nat)
  | reset

namespace Edit

/-- Does an operation. -/
def apply (c : Chunk) : Edit → Attempt VectorError Chunk Unit
  | .append row => c.appendRow row
  | .slice rows => .ofExcept c ((c.slice rows).map fun c' => ((), c'))
  | .flatten => .ofExcept c (c.flatten.map fun c' => ((), c'))
  | .project columns =>
    match c.project? columns with
    | some c' => (.ok (), c')
    | none => (.error .outOfRange, c)
  | .reset => (.ok (), c.reset)

/-- What an operation makes of a list of rows, none when it is refused. -/
def onRows? (l : RowList) : Edit → Option RowList
  | .append row =>
    if row.length = l.types.length ∧ ∀ p ∈ row.zip l.types, p.1.fits p.2 = true then
      some { l with rows := l.rows ++ [row] }
    else none
  | .slice rows => (rows.mapM (l.rows[·]?)).map fun picked => { l with rows := picked }
  | .flatten => some l
  | .project columns =>
    (columns.mapM (l.types[·]?)).map fun types =>
      { types, rows := l.rows.map fun row => columns.map (row.getD · .null) }
  | .reset => some { l with rows := [] }

/-- Does operations one after the other, also after one that is refused. -/
def run (c : Chunk) (edits : List Edit) : Chunk := edits.foldl (fun c e => (e.apply c).2) c

/-- What operations make of a list of rows, where those that are refused do nothing. -/
def runOnRows (l : RowList) (edits : List Edit) : RowList :=
  edits.foldl (fun l e => (e.onRows? l).getD l) l

end Edit

/-! ## A chunk and its list -/

variable {c c' : Chunk} {l : RowList} {row : Row} {i n : Nat}

/-- Vectors that hold a row in a slot. -/
def HoldRow (columns : List ValueVector) (i : Nat) (row : Row) : Prop :=
  List.Forall₂ (fun v x => ValueVector.get? v i = some x) columns row

/-- A chunk with the rows of a list in the slots that it has in use. -/
structure Shows (c : Chunk) (l : RowList) : Prop where
  types_eq : c.types = l.types
  cardinality_eq : c.cardinality = l.rows.length
  room : c.selection = none → c.cardinality ≤ c.capacity
  wide : ∀ v ∈ c.columns, c.capacity ≤ v.capacity
  formed : ∀ v ∈ c.columns, v.Formed (· ∈ c.slots)
  slots_lt : ∀ v ∈ c.columns, ∀ i ∈ c.slots, i < v.capacity
  rows_held : List.Forall₂ (HoldRow c.columns) c.slots l.rows

theorem Shows.length_slots (h : c.Shows l) : c.slots.length = c.cardinality :=
  h.rows_held.length_eq.trans h.cardinality_eq.symm

theorem slots_of_none (h : c.selection = none) : c.slots = List.range c.cardinality := by
  rw [slots, h, Option.getD_none]

theorem slot?_of_slots {k : Nat} (h : c.slots[k]? = some i) : c.slot? k = some i := by
  rw [slots] at h
  rw [slot?]
  cases hsel : c.selection with
  | some rows => rwa [hsel] at h
  | none =>
    rw [hsel] at h
    obtain ⟨hlt, hk⟩ := List.getElem?_eq_some_iff.mp h
    exact congrArg some ((List.getElem_range hlt).symm.trans hk)

/-- A new chunk has no rows. -/
theorem shows_new (types : List ColumnType) (capacity : Nat) :
    (new types capacity).Shows ⟨types, []⟩ where
  types_eq := by
    rw [Chunk.types, new, List.map_map]
    exact (List.map_congr_left fun t _ => ValueVector.type_new t capacity).trans (List.map_id _)
  cardinality_eq := rfl
  room _ := Nat.zero_le _
  wide v hv := by
    obtain ⟨t, -, rfl⟩ := List.mem_map.mp hv
    exact Nat.le_of_eq (ValueVector.capacity_new t capacity).symm
  formed v hv := by
    obtain ⟨t, -, rfl⟩ := List.mem_map.mp hv
    exact (ValueVector.formed_new t capacity).mono fun _ _ => trivial
  slots_lt _ _ i hi := absurd hi List.not_mem_nil
  rows_held := .nil

/-- A row that is held in one slot of some columns is held in another of others that read the same
there. -/
theorem HoldRow.of_forall₂ {columns columns' : List ValueVector} {j : Nat}
    (h : HoldRow columns i row) (hsame : List.Forall₂
      (fun v v' => ValueVector.get? v' j = ValueVector.get? v i) columns columns') :
    HoldRow columns' j row := by
  induction hsame generalizing row with
  | nil => cases h; exact .nil
  | cons hv _ ih =>
    cases h with
    | cons hx hrest => exact .cons (hv.trans hx) (ih hrest)

/-- A column and one that is put in its place, with the values of some of its slots in others, which are
then the ones in use. -/
structure Moved (slots slots' : List Nat) (capacity : Nat) (v v' : ValueVector) : Prop where
  type_eq : v'.type = v.type
  wide : capacity ≤ v'.capacity
  formed : v'.Formed (· ∈ slots')
  slots_lt : ∀ j ∈ slots', j < v'.capacity
  get?_eq : ∀ k i j : Nat, slots[k]? = some i → slots'[k]? = some j → v'.get? j = v.get? i

theorem get?_eq_of_mem {v v' : ValueVector} {slots : List Nat}
    (h : ∀ i ∈ slots, v'.get? i = v.get? i) (k i j : Nat) (hi : slots[k]? = some i)
    (hj : slots[k]? = some j) : v'.get? j = v.get? i := by
  obtain rfl := Option.some.inj (hi.symm.trans hj)
  exact h i (List.mem_of_getElem? hi)

/-- **Columns that are put in the place of others** show the same rows if they have the same values in
the slots in use, wherever those are. -/
theorem Shows.moved (h : c.Shows l)
    (hall : List.Forall₂ (Moved c.slots c'.slots c'.capacity) c.columns c'.columns)
    (hcardinality : c'.cardinality = c.cardinality) (hslots : c'.slots.length = c.cardinality)
    (hroom : c'.selection = none → c'.cardinality ≤ c'.capacity) : c'.Shows l where
  types_eq := (map_eq_of_forall₂ (hall.imp fun _ _ hv => hv.type_eq.symm)).symm.trans h.types_eq
  cardinality_eq := hcardinality.trans h.cardinality_eq
  room := hroom
  wide v' hv' := by
    obtain ⟨v, -, hv⟩ := exists_mem_left_of_forall₂ hall hv'
    exact hv.wide
  formed v' hv' := by
    obtain ⟨v, -, hv⟩ := exists_mem_left_of_forall₂ hall hv'
    exact hv.formed
  slots_lt v' hv' := by
    obtain ⟨v, -, hv⟩ := exists_mem_left_of_forall₂ hall hv'
    exact hv.slots_lt
  rows_held := by
    refine forall₂_iff_getElem?.mpr
      ⟨hslots.trans h.cardinality_eq, fun k j row hj hrow => ?_⟩
    obtain ⟨i, hi, hheld⟩ := exists_left_of_forall₂ h.rows_held hrow
    exact hheld.of_forall₂ (hall.imp fun _ _ hv => hv.get?_eq k i j hi hj)

/-! ## Steps -/

/-- What an operation on a chunk that shows a list comes to: it is done on both, or it is refused and
the chunk shows the list still. -/
def Follows (c : Chunk) (l : RowList) (e : Edit) : Prop :=
  (∃ c' l', e.apply c = (.ok (), c') ∧ e.onRows? l = some l' ∧ c'.Shows l') ∨
  (∃ error c', e.apply c = (.error error, c') ∧ e.onRows? l = none ∧ c'.Shows l)

/-! ### Slices -/

/-- **A slice picks slots,** through all slices before it. -/
theorem Shows.slice_ok (h : c.Shows l) {rows : Selection} (hlt : ∀ i ∈ rows, i < c.cardinality) :
    ∃ picked, rows.mapM (c.slots[·]?) = some picked ∧
      c.slice rows = .ok { c with cardinality := picked.length, selection := some picked } := by
  obtain ⟨picked, hpicked⟩ := exists_picked fun i hi => h.length_slots.symm ▸ hlt i hi
  refine ⟨picked, hpicked, ?_⟩
  rw [Chunk.slice, ValueVector.verify_eq_ok.mpr hlt, ok_bind]
  cases hsel : c.selection with
  | none =>
    rw [slots_of_none hsel] at hpicked
    have hsame : rows.mapM ((List.range c.cardinality)[·]?) = some (rows.map id) :=
      mapM_eq_map fun i hi => List.getElem?_range (hlt i hi)
    rw [List.map_id, hpicked] at hsame
    obtain rfl := Option.some.inj hsame
    rfl
  | some current =>
    have hslots : c.slots = current := by rw [slots, hsel, Option.getD_some]
    rw [hslots] at hpicked
    dsimp only
    rw [Selection.compose?, hpicked]
    rfl

theorem Shows.follows_slice (h : c.Shows l) (rows : Selection) : c.Follows l (.slice rows) := by
  by_cases hlt : ∀ i ∈ rows, i < c.cardinality
  · obtain ⟨picked, hpicked, hslice⟩ := h.slice_ok hlt
    obtain ⟨kept, hkept⟩ := exists_picked fun i hi => h.cardinality_eq ▸ hlt i hi
    have hmem := mem_of_mapM hpicked
    refine .inl ⟨{ c with cardinality := picked.length, selection := some picked },
      { l with rows := kept }, ?_, ?_, ?_⟩
    · rw [Edit.apply, hslice]
      rfl
    · rw [Edit.onRows?, hkept]
      rfl
    · exact {
        types_eq := h.types_eq
        cardinality_eq := (getElem?_of_mapM hpicked).1.trans (getElem?_of_mapM hkept).1.symm
        room := fun hnone => by cases hnone
        wide := h.wide
        formed := fun v hv => (h.formed v hv).mono hmem
        slots_lt := fun v hv i hi => h.slots_lt v hv i (hmem i hi)
        rows_held := forall₂_picked h.rows_held hpicked hkept }
  · refine .inr ?_
    have hverify : ∃ e, rows.verify c.cardinality = .error e := by
      cases hverify : rows.verify c.cardinality with
      | ok => exact absurd (ValueVector.verify_eq_ok.mp hverify) hlt
      | error e => exact ⟨e, rfl⟩
    obtain ⟨e, hverify⟩ := hverify
    refine ⟨e, c, ?_, ?_, h⟩
    · rw [Edit.apply, Chunk.slice, hverify]
      rfl
    · cases hkept : rows.mapM (l.rows[·]?) with
      | none => rw [Edit.onRows?, hkept]; rfl
      | some kept => exact absurd (fun i hi => h.cardinality_eq ▸ lt_of_picked hkept i hi) hlt

/-! ### Flattening -/

/-- The slots in use of a column are copied to the front of a new one. -/
theorem Shows.copyRows (h : c.Shows l) {v : ValueVector} (hv : v ∈ c.columns)
    (hn : c.cardinality ≤ n) :
    ∃ v', (ValueVector.new v.type n).copyRows 0 v c.slots = (.ok (), v') ∧
      Moved c.slots (List.range c.cardinality) n v v' := by
  have hread : ∀ i ∈ c.slots, ∃ x, v.get? i = some x ∧
      x.fits (ValueVector.new v.type n).type = true := fun i hi => by
    rw [ValueVector.type_new]
    exact (h.formed v hv).get?_of_lt (h.slots_lt v hv i hi)
  have hroom : 0 + c.slots.length ≤ (ValueVector.new v.type n).capacity := by
    rwa [Nat.zero_add, h.length_slots, ValueVector.capacity_new]
  obtain ⟨v', hok, hformed, hkeeps, hget⟩ :=
    (ValueVector.formed_new v.type n).copyRows hread hroom
  have hcapacity : n = v'.capacity :=
    (hkeeps.capacity_eq.trans (ValueVector.capacity_new v.type n)).symm
  refine ⟨v', hok, hkeeps.type_eq.trans (ValueVector.type_new v.type n), Nat.le_of_eq hcapacity,
    hformed.mono fun _ _ => .inl trivial, fun j hj => ?_, fun k i j hi hj => ?_⟩
  · exact hcapacity ▸ Nat.lt_of_lt_of_le (List.mem_range.mp hj) hn
  · obtain ⟨hk, rfl⟩ := List.getElem?_eq_some_iff.mp hj
    rw [List.getElem_range, ← hget k i hi, Nat.zero_add]

/-- **Rows that are copied to the front** of new columns are all there, in their order. -/
theorem Shows.flatten_ok (h : c.Shows l) :
    ∃ c', c.flatten = .ok c' ∧ c'.Shows l ∧ c'.selection = none := by
  have hn : c.cardinality ≤ max c.capacity c.cardinality := Nat.le_max_right _ _
  have hflat : ∃ columns,
      c.flatten = .ok ⟨columns, c.cardinality, max c.capacity c.cardinality, none⟩ ∧
        List.Forall₂ (Moved c.slots (List.range c.cardinality) (max c.capacity c.cardinality))
          c.columns columns := by
    unfold Chunk.flatten
    refine exists_mapM_bind fun v hv => ?_
    obtain ⟨v', hcopy, hmoved⟩ := h.copyRows hv hn
    exact ⟨v', by rw [hcopy], hmoved⟩
  obtain ⟨columns, hflat, hall⟩ := hflat
  exact ⟨_, hflat, h.moved hall rfl List.length_range fun _ => hn, rfl⟩

theorem Shows.follows_flatten (h : c.Shows l) : c.Follows l .flatten := by
  obtain ⟨c', hflat, hshows, -⟩ := h.flatten_ok
  exact .inl ⟨c', l, by rw [Edit.apply, hflat]; rfl, rfl, hshows⟩

/-! ### Rows at the end -/

/-- Room for one more row, which is twice as much as before when there was none. -/
def grown (c : Chunk) : Chunk :=
  if c.capacity ≤ c.cardinality then
    { c with
      columns := c.columns.map (·.resize (max (c.capacity * 2) 1))
      capacity := max (c.capacity * 2) 1 }
  else c

/-- **A chunk that grows** keeps its rows, also when a column was longer than the others. -/
theorem Shows.grown (h : c.Shows l) (hsel : c.selection = none) :
    c.grown.Shows l ∧ c.grown.selection = none ∧ c.grown.cardinality < c.grown.capacity := by
  have hroom := h.room hsel
  unfold Chunk.grown
  split
  · have hmore : c.cardinality < max (c.capacity * 2) 1 := by omega
    have hlt : ∀ i ∈ c.slots, i < max (c.capacity * 2) 1 := fun i hi => by
      rw [slots_of_none hsel, List.mem_range] at hi
      exact Nat.lt_trans hi hmore
    refine ⟨h.moved (List.forall₂_map_right_iff.mpr (List.forall₂_same.mpr fun v hv => ?_)) rfl
      h.length_slots fun _ => Nat.le_of_lt hmore, hsel, hmore⟩
    exact {
      type_eq := ValueVector.type_resize v _
      wide := Nat.le_of_eq (ValueVector.capacity_resize v _).symm
      formed := ((h.formed v hv).resize _).mono fun _ => .inl
      slots_lt := fun i hi => (ValueVector.capacity_resize v _).symm ▸ hlt i hi
      get?_eq := get?_eq_of_mem fun i hi =>
        (h.formed v hv).get?_resize (h.slots_lt v hv i hi) (hlt i hi) }
  · rename_i hlt
    exact ⟨h, hsel, Nat.lt_of_not_le hlt⟩

/-- A column that was written, in which the live slots are as before. -/
def Spared (live live' : Nat → Prop) (v v' : ValueVector) : Prop :=
  v'.Formed live' ∧ v.Keeps v' live

/-- What writing a row across columns comes to.  All its values are written if they fit, and all live
slots stay; otherwise one is refused, and all live slots stay too. -/
theorem setAcross_cases {columns : List ValueVector} {live : Nat → Prop}
    (hformed : ∀ v ∈ columns, v.Formed live) (hi : ∀ v ∈ columns, i < v.capacity)
    (hfree : ¬live i) (hlen : row.length = columns.length) :
    (FitsTypes row (columns.map ValueVector.type) ∧ ∃ columns',
      setAcross columns i row = (.ok (), columns') ∧ HoldRow columns' i row ∧
        List.Forall₂ (Spared live fun j => live j ∨ j = i) columns columns') ∨
    (¬FitsTypes row (columns.map ValueVector.type) ∧ ∃ e columns',
      setAcross columns i row = (.error e, columns') ∧
        List.Forall₂ (Spared live live) columns columns') := by
  induction columns generalizing row with
  | nil =>
    obtain rfl := List.eq_nil_of_length_eq_zero hlen
    exact .inl ⟨.nil, [], rfl, .nil, .nil⟩
  | cons v vs ih =>
    cases row with
    | nil => cases hlen
    | cons x xs =>
      have hv := (hformed v List.mem_cons_self).set i x
      obtain ⟨⟨-, hfit⟩, v', hset, hformed', hkeeps, hget⟩ |
        ⟨hnot, e, v', hset, hformed', hkeeps⟩ := hv
      · have hkeeps := hkeeps.mono fun j hj => ⟨hj, fun heq => hfree (heq ▸ hj)⟩
        obtain ⟨hfits, vs', hrest, hheld, hall⟩ | ⟨hnot, e, vs', hrest, hall⟩ :=
          ih (fun w hw => hformed w (List.mem_cons_of_mem _ hw))
            (fun w hw => hi w (List.mem_cons_of_mem _ hw)) (Nat.succ.inj hlen)
        · exact .inl ⟨.cons hfit hfits, v' :: vs', by rw [setAcross, hset, hrest],
            .cons hget hheld, .cons ⟨hformed', hkeeps⟩ hall⟩
        · exact .inr ⟨fun hfits => hnot (List.forall₂_cons.mp hfits).2, e, v' :: vs',
            by rw [setAcross, hset, hrest], .cons ⟨hformed'.mono fun _ => .inl, hkeeps⟩ hall⟩
      · -- The columns behind the one that refused its value were not written.
        have hrest : List.Forall₂ (Spared live live) vs vs := List.forall₂_same.mpr fun w hw =>
          ⟨hformed w (List.mem_cons_of_mem _ hw), .refl w live⟩
        exact .inr ⟨fun hfits => hnot ⟨hi v List.mem_cons_self, (List.forall₂_cons.mp hfits).1⟩, e,
          v' :: vs, by rw [setAcross, hset], .cons ⟨hformed', hkeeps⟩ hrest⟩

/-- A row is written behind the others of a chunk that has no selection and room for it. -/
theorem appendRow_eq {settled : Chunk} {r : Except VectorError Unit} {columns : List ValueVector}
    (hlen : row.length = c.columns.length)
    (hsettled : (if c.selection.isSome then c.flatten else .ok c) = .ok settled)
    (hset : setAcross settled.grown.columns settled.grown.cardinality row = (r, columns)) :
    c.appendRow row = (r, { settled.grown with
      columns
      cardinality := settled.grown.cardinality + if r.isOk then 1 else 0 }) := by
  unfold appendRow
  rw [if_neg (not_not.mpr hlen), hsettled]
  dsimp only
  generalize hgrown : (if settled.capacity ≤ settled.cardinality then _ else settled) = g
  obtain rfl : settled.grown = g := hgrown
  cases hg : settled.grown with
  | mk columns cardinality capacity selection =>
    rw [hg] at hset
    dsimp only at hset ⊢
    rw [hset]
    cases r <;> rfl

theorem Shows.settled (h : c.Shows l) : ∃ settled,
    (if c.selection.isSome then c.flatten else .ok c) = .ok settled ∧ settled.Shows l ∧
      settled.selection = none := by
  cases hsel : c.selection with
  | none => exact ⟨c, rfl, h, hsel⟩
  | some rows => exact h.flatten_ok

/-- Columns in which the slots in use stay show the same rows. -/
theorem Shows.of_keeps (h : c.Shows l) {columns : List ValueVector}
    (hall : List.Forall₂ (Spared (· ∈ c.slots) (· ∈ c.slots)) c.columns columns) :
    Shows { c with columns } l := by
  refine h.moved (forall₂_iff_getElem?.mpr ⟨hall.length_eq, fun m v v' hv hv' => ?_⟩) rfl
    h.length_slots h.room
  obtain ⟨hformed, hkeeps⟩ := (forall₂_iff_getElem?.mp hall).2 m v v' hv hv'
  have hv := List.mem_of_getElem? hv
  exact {
    type_eq := hkeeps.type_eq
    wide := hkeeps.capacity_eq ▸ h.wide v hv
    formed := hformed
    slots_lt := fun i hi => hkeeps.capacity_eq ▸ h.slots_lt v hv i hi
    get?_eq := get?_eq_of_mem fun i hi => hkeeps.get?_eq i (h.slots_lt v hv i hi) hi }

/-- A row that was written behind the others is one of the rows. -/
theorem Shows.snoc (h : c.Shows l) (hsel : c.selection = none) (hroom : c.cardinality < c.capacity)
    (hformed : ∀ v ∈ c.columns, v.Formed fun j => j ∈ c.slots ∨ j = c.cardinality)
    (hheld : HoldRow c.columns c.cardinality row) :
    Shows { c with cardinality := c.cardinality + 1 } { l with rows := l.rows ++ [row] } := by
  have hslots : slots { c with cardinality := c.cardinality + 1 } = c.slots ++ [c.cardinality] := by
    rw [slots_of_none hsel, ← List.range_succ]
    exact slots_of_none hsel
  exact {
    types_eq := h.types_eq
    cardinality_eq := by rw [List.length_append, ← h.cardinality_eq]; rfl
    room := fun _ => hroom
    wide := h.wide
    formed := fun v hv => (hformed v hv).mono fun i hi => by
      rwa [hslots, List.mem_append, List.mem_singleton] at hi
    slots_lt := fun v hv i hi => by
      rw [hslots, slots_of_none hsel, ← List.range_succ, List.mem_range] at hi
      exact Nat.lt_of_lt_of_le (Nat.lt_of_le_of_lt (Nat.le_of_lt_succ hi) hroom) (h.wide v hv)
    rows_held := by
      rw [hslots]
      exact List.rel_append h.rows_held (.cons hheld .nil) }

/-- What writing a row behind the others comes to. -/
theorem Shows.write_cases (h : c.Shows l) (hsel : c.selection = none)
    (hroom : c.cardinality < c.capacity) (hlen : row.length = c.columns.length) :
    (FitsTypes row l.types ∧ ∃ columns,
      setAcross c.columns c.cardinality row = (.ok (), columns) ∧
        Shows { c with columns, cardinality := c.cardinality + 1 }
          { l with rows := l.rows ++ [row] }) ∨
    (¬FitsTypes row l.types ∧ ∃ e columns,
      setAcross c.columns c.cardinality row = (.error e, columns) ∧
        Shows { c with columns } l) := by
  have hfree : c.cardinality ∉ c.slots := fun hmem =>
    Nat.lt_irrefl _ (List.mem_range.mp (slots_of_none hsel ▸ hmem))
  have hfits : FitsTypes row (c.columns.map ValueVector.type) ↔ FitsTypes row l.types :=
    h.types_eq ▸ Iff.rfl
  obtain ⟨hfit, columns, hset, hheld, hall⟩ | ⟨hnot, e, columns, hset, hall⟩ :=
    setAcross_cases h.formed (fun v hv => Nat.lt_of_lt_of_le hroom (h.wide v hv)) hfree hlen
  · have hkept := h.of_keeps (hall.imp fun _ _ hv => ⟨hv.1.mono fun _ => .inl, hv.2⟩)
    refine .inl ⟨hfits.mp hfit, columns, hset, hkept.snoc hsel hroom (fun v' hv' => ?_) hheld⟩
    obtain ⟨v, -, hformed, -⟩ := exists_mem_left_of_forall₂ hall hv'
    exact hformed
  · exact .inr ⟨fun hfit => hnot (hfits.mpr hfit), e, columns, hset, h.of_keeps hall⟩

/-- **A row is added at the end,** also behind more rows than the chunk had room for before they were
picked out of it; a row that does not fit the types leaves the rows as they are. -/
theorem Shows.follows_append (h : c.Shows l) (row : Row) : c.Follows l (.append row) := by
  have hfits : FitsTypes row l.types ↔
      row.length = l.types.length ∧ ∀ p ∈ row.zip l.types, p.1.fits p.2 = true :=
    List.forall₂_iff_zip.trans
      (and_congr_right' ⟨fun hall p hp => hall hp, fun hall _ _ hp => hall _ hp⟩)
  have hcount : l.types.length = c.columns.length := by rw [← h.types_eq, types, List.length_map]
  by_cases hlen : row.length = c.columns.length
  · obtain ⟨settled, hsettled, hshows, hsel⟩ := h.settled
    obtain ⟨hshows, hsel, hroom⟩ := hshows.grown hsel
    have hcount' : l.types.length = settled.grown.columns.length := by
      rw [← hshows.types_eq, types, List.length_map]
    obtain ⟨hfit, columns, hset, hshows⟩ | ⟨hnot, e, columns, hset, hshows⟩ :=
      hshows.write_cases hsel hroom (hlen.trans (hcount.symm.trans hcount'))
    · refine .inl ⟨_, _, ?_, if_pos (hfits.mp hfit), hshows⟩
      rw [Edit.apply, appendRow_eq hlen hsettled hset]
      rfl
    · refine .inr ⟨e, _, ?_, if_neg fun hand => hnot (hfits.mpr hand), hshows⟩
      rw [Edit.apply, appendRow_eq hlen hsettled hset]
      rfl
  · refine .inr ⟨.columnCount c.columns.length row.length, c, ?_,
      if_neg fun hand => hlen (hand.1.trans hcount), h⟩
    rw [Edit.apply, appendRow, if_pos hlen]

/-! ### Columns -/

/-- **Columns that are picked out** hold the values of those columns of each row. -/
theorem Shows.follows_project (h : c.Shows l) (order : List Nat) :
    c.Follows l (.project order) := by
  cases hpicked : c.project? order with
  | some c' =>
    have htypes := types_project? hpicked
    obtain ⟨columns, hcolumns, rfl⟩ := eq_of_project? hpicked
    have hmem := mem_of_mapM hcolumns
    refine .inl ⟨_, ⟨types { c with columns }, l.rows.map fun row => order.map (row.getD · .null)⟩,
      by rw [Edit.apply, hpicked], ?_, ?_⟩
    · rw [Edit.onRows?, ← h.types_eq, htypes]
      rfl
    · exact {
        types_eq := rfl
        cardinality_eq := h.cardinality_eq.trans (List.length_map _).symm
        room := h.room
        wide := fun v hv => h.wide v (hmem v hv)
        formed := fun v hv => h.formed v (hmem v hv)
        slots_lt := fun v hv => h.slots_lt v (hmem v hv)
        rows_held := by
          refine List.forall₂_map_right_iff.mpr (h.rows_held.imp fun i row hrow => ?_)
          refine forall₂_picked hrow hcolumns (mapM_eq_map fun k hk => ?_)
          have hlt : k < row.length := hrow.length_eq ▸ lt_of_picked hcolumns k hk
          rw [List.getD_eq_getElem?_getD, List.getElem?_eq_getElem hlt]
          rfl }
  | none =>
    refine .inr ⟨.outOfRange, c, by rw [Edit.apply, hpicked], ?_, h⟩
    cases htypes : order.mapM (l.types[·]?) with
    | none => rw [Edit.onRows?, htypes]; rfl
    | some types =>
      obtain ⟨columns, hcolumns⟩ := exists_picked fun k hk => by
        have hlt := lt_of_picked htypes k hk
        rwa [← h.types_eq, Chunk.types, List.length_map] at hlt
      rw [project?, hcolumns] at hpicked
      cases hpicked

/-! ### Starting anew -/

theorem Shows.follows_reset (h : c.Shows l) : c.Follows l .reset := by
  refine .inl ⟨c.reset, { l with rows := [] }, rfl, rfl, ?_⟩
  have hcolumn : ∀ v' ∈ c.reset.columns, ∃ v ∈ c.columns, v' = v.reset := fun v' hv' => by
    obtain ⟨v, hv, rfl⟩ := List.mem_map.mp hv'
    exact ⟨v, hv, rfl⟩
  exact {
    types_eq := by
      rw [← h.types_eq, types, types, reset, List.map_map]
      exact List.map_congr_left fun v _ => ValueVector.type_reset v
    cardinality_eq := rfl
    room := fun _ => Nat.zero_le _
    wide := fun v' hv' => by
      obtain ⟨v, hv, rfl⟩ := hcolumn v' hv'
      rw [ValueVector.capacity_reset]
      exact h.wide v hv
    formed := fun v' hv' => by
      obtain ⟨v, hv, rfl⟩ := hcolumn v' hv'
      exact (h.formed v hv).reset.mono fun i hi => absurd hi List.not_mem_nil
    slots_lt := fun _ _ i hi => absurd hi List.not_mem_nil
    rows_held := .nil }

/-! ## Runs -/

/-- **Every operation does to a chunk what it does to its list.** -/
theorem Shows.follows (h : c.Shows l) (e : Edit) : c.Follows l e := by
  cases e with
  | append row => exact h.follows_append row
  | slice rows => exact h.follows_slice rows
  | flatten => exact h.follows_flatten
  | project order => exact h.follows_project order
  | reset => exact h.follows_reset

/-- **A chunk shows its list** after any operations. -/
theorem Shows.run (h : c.Shows l) (edits : List Edit) :
    (Edit.run c edits).Shows (Edit.runOnRows l edits) := by
  induction edits generalizing c l with
  | nil => exact h
  | cons e rest ih =>
    rw [Edit.run, Edit.runOnRows, List.foldl_cons, List.foldl_cons]
    obtain ⟨c', l', happly, hrows, hshows⟩ | ⟨error, c', happly, hrows, hshows⟩ := h.follows e
    · rw [happly, hrows]
      exact ih hshows
    · rw [happly, hrows]
      exact ih hshows

/-- A chunk reads as a list of rows: its rows are those of the list, if there can be so many, and every
value can be asked for by its column and its row. -/
structure Reads (c : Chunk) (l : RowList) : Prop where
  types_eq : c.types = l.types
  cardinality_eq : c.cardinality = l.rows.length
  rows?_eq : rowBytes * l.rows.length ≤ Bytes.longest → c.rows? = some l.rows
  get?_eq : ∀ row < l.rows.length, ∀ column : Nat,
    c.get? column row = (l.rows[row]?).bind fun values => values[column]?

theorem Shows.reads (h : c.Shows l) : c.Reads l where
  types_eq := h.types_eq
  cardinality_eq := h.cardinality_eq
  rows?_eq hlong := by
    rw [rows?, h.cardinality_eq, if_pos hlong]
    exact mapM_of_forall₂ (h.rows_held.imp fun i row hrow => mapM_of_forall₂ hrow)
  get?_eq row hrow column := by
    have hvalues := List.getElem?_eq_getElem hrow
    obtain ⟨i, hi, hheld⟩ := exists_left_of_forall₂ h.rows_held hvalues
    have hslot := slot?_of_slots hi
    rw [Chunk.get?, hvalues, Option.bind_some]
    cases hv : c.columns[column]? with
    | none =>
      exact (List.getElem?_eq_none (hheld.length_eq ▸ List.getElem?_eq_none_iff.mp hv)).symm
    | some v =>
      obtain ⟨x, hx, hget⟩ := exists_right_of_forall₂ hheld hv
      rw [hx, ← hget]
      exact congrArg (Option.bind · (v.get? ·)) hslot

/-- The chunks that operations start from, with their rows: a new one, or one made of vectors, which
may have different capacities, after any operations on each. -/
inductive Begins : Chunk → RowList → Prop
  | new (types : List ColumnType) (capacity : Nat) : Begins (new types capacity) ⟨types, []⟩
  | ofVectors {columns : List ValueVector} {n : Nat} {c : Chunk} {rows : List Row}
      (written : ∀ v ∈ columns, ∃ (t : ColumnType) (capacity : Nat) (edits : List ValueVector.Edit),
        (∀ e ∈ edits, e.Reads) ∧ v = ValueVector.Edit.run (.new t capacity) edits)
      (made : ofVectors columns n = .ok c) (read : c.rows? = some rows) : Begins c ⟨c.types, rows⟩

/-- The first slots that all of some vectors have are rows. -/
theorem shows_ofVectors {columns : List ValueVector} {rows : List Row}
    (hformed : ∀ v ∈ columns, v.Formed fun _ => True) (hmade : ofVectors columns n = .ok c)
    (hread : c.rows? = some rows) : c.Shows ⟨c.types, rows⟩ := by
  unfold ofVectors at hmade
  dsimp only at hmade
  split at hmade
  · cases hmade
  · rename_i hroom
    obtain rfl := Except.ok.inj hmade
    have hwide : ∀ v ∈ columns, (columns.map ValueVector.capacity).min?.getD n ≤ v.capacity :=
      fun v hv => List.min?_getD_le_of_mem (List.mem_map_of_mem hv)
    unfold rows? at hread
    split at hread
    · have hheld := forall₂_of_mapM hread
      exact {
        types_eq := rfl
        cardinality_eq := List.length_range.symm.trans hheld.length_eq
        room := fun _ => Nat.le_of_not_lt hroom
        wide := hwide
        formed := fun v hv => (hformed v hv).mono fun _ _ => trivial
        slots_lt := fun v hv i hi => Nat.lt_of_lt_of_le (List.mem_range.mp hi)
          (Nat.le_trans (Nat.le_of_not_lt hroom) (hwide v hv))
        rows_held := hheld.imp fun _ _ hrow => forall₂_of_mapM hrow }
    · cases hread

theorem Begins.shows (h : Begins c l) : c.Shows l := by
  cases h with
  | new types capacity => exact shows_new types capacity
  | ofVectors written made read =>
    refine shows_ofVectors (fun v hv => ?_) made read
    obtain ⟨t, capacity, edits, hedits, rfl⟩ := written v hv
    exact ((ValueVector.shows_new t capacity).run hedits).formed

/-- **A chunk is a list of rows.**  Take a new chunk of any types, lists included, or one made of
vectors, and do any operations on it.

* Its rows are those of the list on which the same operations were done: a slice picks rows by their
  numbers, in any order and with repetitions, through all slices before it; flattening changes nothing; a
  row is added at the end, also when a slice left more rows than the chunk had room for; a projection
  picks columns; after a reset there are no rows.
* One more operation is accepted where the list accepts it, and then the rows are those of the list.  An
  operation that is refused, as a row is at a later column after earlier ones were written, leaves the
  rows as they were. -/
theorem run_as_rows {begun : Chunk} {start : RowList} (h : Begins begun start) (edits : List Edit) :
    let c := Edit.run begun edits
    let l := Edit.runOnRows start edits
    c.Reads l ∧ ∀ e : Edit,
      (∃ c' l', e.apply c = (.ok (), c') ∧ e.onRows? l = some l' ∧ c'.Reads l') ∨
      (∃ error c', e.apply c = (.error error, c') ∧ e.onRows? l = none ∧ c'.Reads l) := by
  intro c l
  have hshows : c.Shows l := h.shows.run edits
  refine ⟨hshows.reads, fun e => ?_⟩
  obtain ⟨c', l', happly, hrows, hshows⟩ | ⟨error, c', happly, hrows, hshows⟩ := hshows.follows e
  · exact .inl ⟨c', l', happly, hrows, hshows.reads⟩
  · exact .inr ⟨error, c', happly, hrows, hshows.reads⟩

/-- Two vectors, one of them of lists and with more slots than the other. -/
def mixedColumns : List ValueVector :=
  [ValueVector.Edit.run (.new .integer 2) [.set 0 (.integer 1), .setNull 1],
    ValueVector.Edit.run (.new (.list .integer) 5) [.set 0 (.list [.integer 1, .integer 2])]]

/-- More rows than slots are picked, and a row is added behind them; one is refused for the type of its
list, after its number was written; then columns are picked out, in another order. -/
def mixedEdits : List Edit :=
  [.slice [1, 0, 1], .append [.integer 3, .list [.integer 9]],
    .append [.integer 4, .list [.boolean true]], .slice [3, 0], .flatten, .slice [1, 1, 0],
    .project [1, 0, 1]]

/-- What is left after the operations; after a reset the columns are filled anew. -/
theorem run_as_rows_mixed :
    let c : Chunk := ⟨mixedColumns, 2, 2, none⟩
    (Edit.run c mixedEdits).rows? = some
      [[.list [], .null, .list []], [.list [], .null, .list []],
        [.list [.integer 9], .integer 3, .list [.integer 9]]] ∧
    (Edit.run c (mixedEdits ++ [.reset, .append [.null, .integer 5, .list []]])).rows? = some
      [[.null, .integer 5, .list []]] := by
  have hbegins : Begins ⟨mixedColumns, 2, 2, none⟩ ⟨[.integer, .list .integer],
      [[.integer 1, .list [.integer 1, .integer 2]], [.null, .list []]]⟩ := by
    refine @Begins.ofVectors mixedColumns 2 ⟨mixedColumns, 2, 2, none⟩ _ (fun v hv => ?_) rfl rfl
    obtain rfl | rfl := by simpa [mixedColumns] using hv
    · refine ⟨_, _, _, fun e he => ?_, rfl⟩
      obtain rfl | rfl := by simpa using he
      all_goals exact trivial
    · refine ⟨_, _, _, fun e he => ?_, rfl⟩
      obtain rfl := List.mem_singleton.mp he
      exact trivial
  exact ⟨(run_as_rows hbegins mixedEdits).1.rows?_eq (by decide),
    (run_as_rows hbegins _).1.rows?_eq (by decide)⟩

end Chunk
end ColumnStore
