/-
# A column is a list of versioned cells

A cell is a value with the versions that were written over it, and a reader of a cell gets the newest
version that it sees.  Whatever is done to a column is done to a list of cells (`Cell.Step`), and what
comes of it is the same (`Column.Changed.refines_cells`): how the rows are cut into segments and which
of these are sealed or stored in blocks, no reader can tell.
-/

import ColumnStore.Proofs.Column.Bounds
import ColumnStore.Proofs.Column.Cutting
import ColumnStore.Proofs.Column.Scanning
import ColumnStore.Proofs.Segment.Decoding
import ColumnStore.Proofs.Storage.Stored

namespace ColumnStore

/-! ## Cells -/

/-- A value that was added, and the versions that were written over it, the oldest first. -/
structure Cell where
  value : Scalar
  versions : List Version := []
  deriving Repr

namespace Cell

/-- What a reader gets: the newest version that it sees, and else the value that was added. -/
def read (cell : Cell) (s : Snapshot) : Scalar :=
  ((cell.versions.reverse.find? fun v => s.sees v.stamp).map (·.value)).getD cell.value

/-- Writes a version over a cell. -/
def write (cell : Cell) (v : Version) : Cell := { cell with versions := cell.versions ++ [v] }

/-- Gives every version that a transaction wrote the time of its commit. -/
def commit (cell : Cell) (transaction time : Stamp) : Cell :=
  { cell with
    versions := cell.versions.map fun v =>
      if v.stamp = transaction then { v with stamp := time } else v }

/-- The newest version that a transaction wrote. -/
def newest? (cell : Cell) (transaction : Stamp) : Option Scalar :=
  (cell.versions.reverse.find? fun v => v.stamp = transaction).map (·.value)

/-- Takes back the newest version that a transaction wrote. -/
def revert (cell : Cell) (transaction : Stamp) : Cell :=
  { cell with versions := (cell.versions.reverse.eraseP fun v => v.stamp = transaction).reverse }

end Cell

/-- **The version that is taken back** is the last one of its transaction. -/
theorem Overlay.removeLast?_eq (stamp : Stamp) (chain : List Version) :
    removeLast? stamp chain = (chain.reverse.find? fun v => v.stamp = stamp).map fun v =>
      (v.value, (chain.reverse.eraseP fun w => w.stamp = stamp).reverse) := by
  by_cases h : ∀ v ∈ chain, v.stamp ≠ stamp
  · have hnone : (chain.reverse.find? fun v => v.stamp = stamp) = none := by
      simpa [List.find?_eq_none] using h
    rw [removeLast?_eq_none h, hnone]
    rfl
  · obtain ⟨v, hv, hstamp⟩ : ∃ v ∈ chain, v.stamp = stamp := by simpa using h
    obtain ⟨w, back, front, hback, hw, hchain, herase⟩ :=
      List.exists_of_eraseP (p := fun w => w.stamp = stamp) (List.mem_reverse.mpr hv)
        (by simpa using hstamp)
    simp only [decide_eq_true_eq] at hback hw
    have hsplit : chain = front.reverse ++ w :: back.reverse := by
      rw [← List.reverse_reverse chain, hchain]
      simp
    have hfind : (chain.reverse.find? fun v => v.stamp = stamp) = some w := by
      rw [hchain, List.find?_append, List.find?_eq_none.mpr (by simpa using hback)]
      simp [hw]
    rw [hfind, Option.map_some, herase, List.reverse_append, hsplit]
    exact removeLast?_append stamp _ _ w hw (by simpa using hback)

/-! ## Changes -/

/-- Something that is done to a column. -/
inductive Change where
  | append (given : ValueVector) (rows : Selection)
  | update (row : Nat) (v : Version)
  | commitUpdate (row : Nat) (transaction time : Stamp)
  | revertUpdate (row : Nat) (transaction : Stamp)

namespace Change

/-- What is given has values of its own type. -/
def Typed : Change → Prop
  | .append given _ => given.Typed
  | _ => True

/-- The row that is changed. -/
def row? : Change → Option Nat
  | .append .. => none
  | .update row _ | .commitUpdate row .. | .revertUpdate row _ => some row

/-- Whether a value that is written is of a type. -/
def Fits (t : ColumnType) : Change → Prop
  | .update _ v => v.value.fits t = true
  | _ => True

end Change

/-- What a change comes to: the value of a version that was taken back, if there was one. -/
abbrev Answer := Except StorageError (Option Scalar)

/-- What a change of cells of a type comes to, and which cells it leaves.  Rows may be cut short where
they are too long to be stored. -/
inductive Cell.Step (t : ColumnType) : Change → Answer → List Cell → List Cell → Prop
  | append {cells : List Cell} {given : ValueVector} {rows : Selection} {values : List Scalar}
      (htype : given.type = t) (hlists : given.Lists rows values) :
      Step t (.append given rows) (.ok none) cells (cells ++ values.map (⟨·, []⟩))
  | cutShort {cells : List Cell} {given : ValueVector} {rows : Selection} {values : List Scalar}
      {what : String} {n : Nat} (htype : given.type = t)
      (hlists : given.Lists (rows.take values.length) values) :
      Step t (.append given rows) (.error (.tooLarge what n)) cells
        (cells ++ values.map (⟨·, []⟩))
  | otherType {cells : List Cell} {given : ValueVector} {rows : Selection} (htype : given.type ≠ t) :
      Step t (.append given rows) (.error (.vector (.typeMismatch t given.type.render))) cells cells
  | update {cells : List Cell} {cell : Cell} {row : Nat} {v : Version}
      (hcell : cells[row]? = some cell) (hfits : v.value.fits t = true) :
      Step t (.update row v) (.ok none) cells (cells.set row (cell.write v))
  | unfit {cells : List Cell} {row : Nat} {v : Version} (hfits : v.value.fits t = false) :
      Step t (.update row v) (.error (.vector (.typeMismatch t v.value.render))) cells cells
  | commitUpdate {cells : List Cell} {cell : Cell} {row : Nat} {transaction time : Stamp}
      (hcell : cells[row]? = some cell) :
      Step t (.commitUpdate row transaction time) (.ok none) cells
        (cells.set row (cell.commit transaction time))
  | revertUpdate {cells : List Cell} {cell : Cell} {row : Nat} {transaction : Stamp}
      (hcell : cells[row]? = some cell) :
      Step t (.revertUpdate row transaction) (.ok (cell.newest? transaction)) cells
        (cells.set row (cell.revert transaction))
  | noRow {cells : List Cell} {x : Change} {row : Nat} (hrow : x.row? = some row) (hfits : x.Fits t)
      (hnone : cells[row]? = none) :
      Step t x (.error (.rowOutOfRange "" row)) cells cells

/-- What changes of cells come to, one after the other. -/
inductive Cell.Steps (t : ColumnType) :
    List Change → List Answer → List Cell → List Cell → Prop
  | nil {cells : List Cell} : Steps t [] [] cells cells
  | cons {x : Change} {r : Answer} {xs : List Change} {rs : List Answer}
      {cells cells' cells'' : List Cell} (hstep : Cell.Step t x r cells cells')
      (hrest : Steps t xs rs cells' cells'') : Steps t (x :: xs) (r :: rs) cells cells''

namespace Column

/-- Changes a column; a change that is refused leaves what it has done so far. -/
def change (c : Column) : Change → Attempt StorageError Column (Option Scalar)
  | .append given rows => ((c.append given rows).1.map fun _ => none, (c.append given rows).2)
  | .update row v => .ofExcept c ((c.update row v).map (none, ·))
  | .commitUpdate row transaction time =>
    .ofExcept c ((c.commitUpdate row transaction time).map (none, ·))
  | .revertUpdate row transaction => .ofExcept c (c.revertUpdate row transaction)

/-- Changes a column again and again, also behind a change that was refused. -/
def run (c : Column) : List Change → List Answer × Column
  | [] => ([], c)
  | x :: rest => ((c.change x).1 :: ((c.change x).2.run rest).1, ((c.change x).2.run rest).2)

/-! ## Columns as cells -/

/-- A column whose rows are cells. -/
structure Refines (source : Source) (c : Column) (cells : List Cell) : Prop where
  sound : c.Sound
  rows_eq : c.rows = cells.length
  under_eq : ∀ row cell, cells[row]? = some cell → c.under source row = .ok cell.value
  chain_eq : ∀ row cell, cells[row]? = some cell → c.chain row = cell.versions
  fits : ∀ cell ∈ cells, cell.value.fits c.type = true ∧
    ∀ v ∈ cell.versions, v.value.fits c.type = true

variable {source : Source} {c c' : Column} {cells : List Cell}

theorem Refines.legible (h : Refines source c cells) : c.Legible source := by
  refine ⟨h.sound, fun row hrow => ?_, fun row v hv => ?_⟩
  · have hcell := List.getElem?_eq_getElem (h.rows_eq ▸ hrow)
    exact ⟨_, h.under_eq row _ hcell, (h.fits _ (List.mem_of_getElem? hcell)).1⟩
  · rcases Nat.lt_or_ge row c.rows with hrow | hrow
    · have hcell := List.getElem?_eq_getElem (h.rows_eq ▸ hrow)
      exact (h.fits _ (List.mem_of_getElem? hcell)).2 v (h.chain_eq row _ hcell ▸ hv)
    · rw [chain_of_le hrow] at hv
      cases hv

/-- **A reader of a row gets what a reader of the cell gets.** -/
theorem Refines.value_eq (h : Refines source c cells) {row : Nat} {cell : Cell}
    (hcell : cells[row]? = some cell) (s : Snapshot) :
    c.value source row s = .ok (cell.read s) := by
  have hread : cell.read s = (seen? cell.versions s).getD cell.value := rfl
  rw [value, readOver, h.chain_eq row cell hcell, h.under_eq row cell hcell, hread]
  cases seen? cell.versions s <;> rfl

/-- **Rows at the end are cells without versions.** -/
theorem Refines.grows (h : Refines source c cells) {values : List Scalar} (hg : Grows c c' values)
    (hfits : ∀ x ∈ values, x.fits c.type = true) :
    Refines source c' (cells ++ values.map (⟨·, []⟩)) := by
  refine ⟨hg.sound, ?_, fun row cell hcell => ?_, fun row cell hcell => ?_, fun cell hcell => ?_⟩
  · rw [hg.rows_eq, h.rows_eq, List.length_append, List.length_map]
  · rcases Nat.lt_or_ge row cells.length with hlt | hge
    · rw [List.getElem?_append_left hlt] at hcell
      rw [hg.under_old source row (h.rows_eq ▸ hlt)]
      exact h.under_eq row cell hcell
    · rw [List.getElem?_append_right hge, List.getElem?_map] at hcell
      obtain ⟨x, hx, rfl⟩ := Option.map_eq_some_iff.mp hcell
      have hnew := hg.under_new source _ x hx
      rwa [h.rows_eq, Nat.add_sub_cancel' hge] at hnew
  · rw [hg.chain_eq]
    rcases Nat.lt_or_ge row cells.length with hlt | hge
    · rw [List.getElem?_append_left hlt] at hcell
      exact h.chain_eq row cell hcell
    · rw [List.getElem?_append_right hge, List.getElem?_map] at hcell
      obtain ⟨x, hx, rfl⟩ := Option.map_eq_some_iff.mp hcell
      exact chain_of_le (h.rows_eq ▸ hge)
  · rw [hg.type_eq]
    rcases List.mem_append.mp hcell with hcell | hcell
    · exact h.fits cell hcell
    · obtain ⟨x, hx, rfl⟩ := List.mem_map.mp hcell
      exact ⟨hfits x hx, fun v hv => absurd hv List.not_mem_nil⟩

/-- **A change of the versions of one row** is a change of one cell. -/
theorem Refines.keeps (h : Refines source c cells) (hk : Keeps c c') {row : Nat} {cell cell' : Cell}
    (hcell : cells[row]? = some cell) (hvalue : cell'.value = cell.value)
    (hchain : ∀ r, c'.chain r = if r = row then cell'.versions else c.chain r)
    (hfits : ∀ v ∈ cell'.versions, v.value.fits c.type = true) :
    Refines source c' (cells.set row cell') := by
  have hrow : row < cells.length := (List.getElem?_eq_some_iff.mp hcell).1
  refine ⟨hk.sound, by rw [hk.rows_eq, h.rows_eq, List.length_set], fun r d hd => ?_, fun r d hd => ?_,
    fun d hd => ?_⟩
  · rw [hk.under_eq]
    by_cases hr : r = row
    · subst hr
      rw [List.getElem?_set_self hrow] at hd
      obtain rfl := Option.some.inj hd
      rw [hvalue]
      exact h.under_eq r cell hcell
    · rw [List.getElem?_set_ne (Ne.symm hr)] at hd
      exact h.under_eq r d hd
  · rw [hchain]
    by_cases hr : r = row
    · subst hr
      rw [List.getElem?_set_self hrow] at hd
      rw [if_pos rfl, Option.some.inj hd]
    · rw [List.getElem?_set_ne (Ne.symm hr)] at hd
      rw [if_neg hr]
      exact h.chain_eq r d hd
  · rw [hk.type_eq]
    rcases List.mem_or_eq_of_mem_set hd with hd | rfl
    · exact h.fits d hd
    · exact ⟨hvalue ▸ (h.fits cell (List.mem_of_getElem? hcell)).1, hfits⟩

/-- **A version of a row** is a version of a cell. -/
theorem Refines.withVersions (h : Refines source c cells) {row : Nat} (hrow : row < c.rows)
    {f : List Version → List Version} (hk : Keeps c c')
    (hchain : ∀ r, c'.chain r = if r = row then f (c.chain row) else c.chain r)
    (hfits : ∀ chain, (∀ v ∈ chain, v.value.fits c.type = true) →
      ∀ v ∈ f chain, v.value.fits c.type = true) :
    ∃ cell, cells[row]? = some cell ∧ c.chain row = cell.versions ∧
      Refines source c' (cells.set row { cell with versions := f cell.versions }) := by
  have hcell := List.getElem?_eq_getElem (h.rows_eq ▸ hrow)
  have hversions := h.chain_eq row _ hcell
  refine ⟨_, hcell, hversions, h.keeps hk hcell rfl (fun r => ?_) ?_⟩
  · rw [hchain, hversions]
  · exact hfits _ (h.fits _ (List.mem_of_getElem? hcell)).2

/-- A row that no cell has is not in the column. -/
theorem Refines.none_of_le (h : Refines source c cells) {row : Nat} (hrow : c.rows ≤ row) :
    cells[row]? = none := List.getElem?_eq_none (h.rows_eq ▸ hrow)

/-- **A write over a row** is a write over a cell. -/
theorem Refines.update (h : Refines source c cells) (row : Nat) (v : Version) :
    ∃ r c' cells', c.change (.update row v) = (r, c') ∧
      Cell.Step c.type (.update row v) r cells cells' ∧ Refines source c' cells' ∧ Keeps c c' := by
  rw [Column.change]
  cases hfits : v.value.fits c.type with
  | false =>
    have hno : c.update row v = .error (.vector (.typeMismatch c.type v.value.render)) := by
      rw [Column.update, hfits]
      rfl
    rw [hno]
    exact ⟨_, c, cells, rfl, .unfit hfits, h, .refl h.sound⟩
  | true =>
    rcases Nat.lt_or_ge row c.rows with hrow | hrow
    · obtain ⟨c', hok, hk, hchain⟩ := update_ok h.sound hrow hfits
      obtain ⟨cell, hcell, -, hrefines⟩ := h.withVersions hrow (f := (· ++ [v])) hk hchain
        fun chain hall w hw => by
          rcases List.mem_append.mp hw with hw | hw
          · exact hall w hw
          · exact List.mem_singleton.mp hw ▸ hfits
      rw [hok]
      exact ⟨_, c', _, rfl, .update hcell hfits, hrefines, hk⟩
    · have hno : c.update row v = .error (.rowOutOfRange "" row) := by
        rw [Column.update, hfits, locate_of_le hrow]
        rfl
      rw [hno]
      exact ⟨_, c, cells, rfl, .noRow rfl hfits (h.none_of_le hrow), h, .refl h.sound⟩

/-- **A commit of a write** is that of a cell. -/
theorem Refines.commitUpdate (h : Refines source c cells) (row : Nat) (transaction time : Stamp) :
    ∃ r c' cells', c.change (.commitUpdate row transaction time) = (r, c') ∧
      Cell.Step c.type (.commitUpdate row transaction time) r cells cells' ∧
      Refines source c' cells' ∧ Keeps c c' := by
  rw [Column.change]
  rcases Nat.lt_or_ge row c.rows with hrow | hrow
  · obtain ⟨c', hok, hk, hchain⟩ := commitUpdate_ok h.sound hrow transaction time
    obtain ⟨cell, hcell, -, hrefines⟩ := h.withVersions hrow
      (f := (·.map (Overlay.restamp transaction time))) hk hchain fun chain hall w hw => by
        obtain ⟨v, hv, rfl⟩ := List.mem_map.mp hw
        unfold Overlay.restamp
        split <;> exact hall v hv
    rw [hok]
    exact ⟨_, c', _, rfl, .commitUpdate hcell, hrefines, hk⟩
  · have hno : c.commitUpdate row transaction time = .error (.rowOutOfRange "" row) := by
      rw [Column.commitUpdate, locate_of_le hrow]
      rfl
    rw [hno]
    exact ⟨_, c, cells, rfl, .noRow rfl trivial (h.none_of_le hrow), h, .refl h.sound⟩

theorem dropLastOf_eq (stamp : Stamp) (chain : List Version) :
    Overlay.dropLastOf stamp chain =
      (chain.reverse.eraseP fun v => v.stamp = stamp).reverse := by
  rw [Overlay.dropLastOf, Overlay.removeLast?_eq]
  cases hfind : chain.reverse.find? fun v => v.stamp = stamp with
  | some v => rfl
  | none =>
    rw [List.eraseP_of_forall_not (by simpa [List.find?_eq_none] using hfind), List.reverse_reverse]
    rfl

/-- **To take a write back** is to take it back from a cell. -/
theorem Refines.revertUpdate (h : Refines source c cells) (row : Nat) (transaction : Stamp) :
    ∃ r c' cells', c.change (.revertUpdate row transaction) = (r, c') ∧
      Cell.Step c.type (.revertUpdate row transaction) r cells cells' ∧
      Refines source c' cells' ∧ Keeps c c' := by
  rw [Column.change]
  rcases Nat.lt_or_ge row c.rows with hrow | hrow
  · obtain ⟨c', hok, hk, hchain⟩ := revertUpdate_ok h.sound hrow transaction
    obtain ⟨cell, hcell, hversions, hrefines⟩ := h.withVersions hrow
      (f := Overlay.dropLastOf transaction) hk hchain
        fun chain hall w hw => hall w (Overlay.mem_of_mem_dropLastOf hw)
    have hvalue : (Overlay.removeLast? transaction (c.chain row)).map (·.1) =
        cell.newest? transaction := by
      rw [hversions, Overlay.removeLast?_eq, Option.map_map]
      rfl
    rw [hok, hvalue]
    rw [dropLastOf_eq] at hrefines
    exact ⟨_, c', _, rfl, .revertUpdate hcell, hrefines, hk⟩
  · have hno : c.revertUpdate row transaction = .error (.rowOutOfRange "" row) := by
      rw [Column.revertUpdate, locate_of_le hrow]
      rfl
    rw [hno]
    exact ⟨_, c, cells, rfl, .noRow rfl trivial (h.none_of_le hrow), h, .refl h.sound⟩

variable {old : List (Nat × Nat)} {base : Nat}

/-- **Rows that are added** are added to the cells. -/
theorem Refines.append (h : Refines source c cells) (hcut : c.Cut old base)
    (hp : 0 < c.policy.capacity) {given : ValueVector} (hgiven : given.Typed) (rows : Selection) :
    (c.change (.append given rows)).1 = .error (.vector .outOfRange) ∨
      ∃ r c' cells', c.change (.append given rows) = (r, c') ∧
        Cell.Step c.type (.append given rows) r cells cells' ∧ Refines source c' cells' ∧
        c'.Cut old base ∧ c'.type = c.type ∧ c'.policy = c.policy := by
  rw [Column.change, Column.append]
  by_cases htype : given.type = c.type
  · rw [if_neg (not_not.mpr htype)]
    have hfits : ∀ i x, given.get? i = some x → x.fits c.type = true := htype ▸ hgiven
    obtain ⟨hpanic, -⟩ | ⟨values, d, hlists, hgrows, hcut', hok⟩ := hcut.appendRows hp hfits rows
    · rw [hpanic]
      exact Or.inl rfl
    have hvalues : ∀ x ∈ values, x.fits c.type = true := by
      intro x hx
      have hsome : some x ∈ (rows.take values.length).map given.get? :=
        hlists ▸ List.mem_map_of_mem hx
      obtain ⟨i, -, hi⟩ := List.mem_map.mp hsome
      exact hfits i x hi
    have hrefines := h.grows hgrows hvalues
    obtain ⟨hok, hlength⟩ | ⟨-, what, n, hlong⟩ := hok
    · rw [hlength, List.take_length] at hlists
      rw [hok]
      exact Or.inr ⟨_, d, _, rfl, .append htype hlists, hrefines, hcut', hgrows.type_eq,
        hgrows.policy_eq⟩
    · rw [hlong]
      exact Or.inr ⟨_, d, _, rfl, .cutShort htype hlists, hrefines, hcut', hgrows.type_eq,
        hgrows.policy_eq⟩
  · rw [if_pos htype]
    exact Or.inr ⟨_, c, cells, rfl, .otherType htype, h, hcut, rfl, rfl⟩

/-- **Whatever is done to a column is done to its cells.** -/
theorem Refines.change (h : Refines source c cells) (hcut : c.Cut old base)
    (hp : 0 < c.policy.capacity) {x : Change} (hx : x.Typed) :
    (c.change x).1 = .error (.vector .outOfRange) ∨
      ∃ r c' cells', c.change x = (r, c') ∧ Cell.Step c.type x r cells cells' ∧
        Refines source c' cells' ∧ c'.Cut old base ∧ c'.type = c.type ∧ c'.policy = c.policy := by
  have hrest : (∃ r c' cells', c.change x = (r, c') ∧ Cell.Step c.type x r cells cells' ∧
      Refines source c' cells' ∧ Keeps c c') → ∃ r c' cells', c.change x = (r, c') ∧
        Cell.Step c.type x r cells cells' ∧ Refines source c' cells' ∧ c'.Cut old base ∧
        c'.type = c.type ∧ c'.policy = c.policy := by
    rintro ⟨r, c', cells', hc, hstep, hrefines, hk⟩
    exact ⟨r, c', cells', hc, hstep, hrefines, hcut.keeps hk, hk.type_eq, hk.policy_eq⟩
  cases x with
  | append given rows => exact h.append hcut hp hx rows
  | update row v => exact Or.inr (hrest (h.update row v))
  | commitUpdate row transaction time => exact Or.inr (hrest (h.commitUpdate row transaction time))
  | revertUpdate row transaction => exact Or.inr (hrest (h.revertUpdate row transaction))

/-! ## Where columns start -/

/-- A segment of a checkpoint, and the cells of the values that are read from its blocks. -/
def Loads (source : Source) (t : ColumnType) (s : Segment) (cells : List Cell) : Prop :=
  ∃ start statistics stored v values, s = .ofStored start statistics stored ∧ stored.type = t ∧
    source.load stored = .ok v ∧ v.Lists (List.range stored.rows) values ∧
    cells = values.map (⟨·, []⟩)

/-- A column without rows, or with the rows of the segments of a checkpoint. -/
inductive Starts (source : Source) : Column → List Cell → Prop
  | new {t : ColumnType} {policy : SegmentPolicy} {c : Column} (hok : Column.new t policy = .ok c) :
      Starts source c []
  | stored {t : ColumnType} {policy : SegmentPolicy} {c : Column} {segments : List Segment}
      {cells : List (List Cell)} (ht : t.isNested = false)
      (hsegments : List.Forall₂ (Loads source t) segments cells)
      (hok : ofSegments t policy segments = .ok c) : Starts source c cells.flatten

/-- The cells of a segment without updates that takes no rows. -/
structure Lies (source : Source) (t : ColumnType) (s : Segment) (cells : List Cell) : Prop where
  sound : s.Sound
  type_eq : s.type = t
  closed : s.isOpen = false
  capacity_eq : s.capacity = s.count
  count_eq : s.count = cells.length
  chain_eq : ∀ k, s.overlay.chain k = []
  cell : ∀ k cell, cells[k]? = some cell →
    s.under source k = .ok cell.value ∧ cell.versions = [] ∧ cell.value.fits t = true

theorem Loads.lies {d : Disk} {t : ColumnType} (ht : t.isNested = false) {s : Segment}
    (h : Loads d.source t s cells) : Lies d.source t s cells := by
  obtain ⟨start, statistics, stored, v, values, rfl, rfl, hload, hlists, rfl⟩ := h
  obtain ⟨hv, hvt, hvc⟩ := Disk.load_sound ht hload
  have hlength : stored.rows = values.length := by simpa using congrArg List.length hlists
  refine ⟨⟨List.Pairwise.nil, fun _ _ => rfl, rfl, rfl⟩, rfl, rfl, rfl, ?_, fun _ => rfl,
    fun k cell hcell => ?_⟩
  · rw [List.length_map]
    exact hlength
  · rw [List.getElem?_map] at hcell
    obtain ⟨x, hx, rfl⟩ := Option.map_eq_some_iff.mp hcell
    have hk : k < values.length := (List.getElem?_eq_some_iff.mp hx).1
    have hget : v.get? k = some x :=
      (hlists.getElem?_eq (List.getElem?_range (hlength ▸ hk))).symm.trans hx
    exact ⟨Segment.under_stored rfl hload hget, rfl, hvt ▸ hv.typed k x hget⟩

/-- **Where the cells of a segment are** among those of all. -/
theorem getElem?_flatten {t : ColumnType} {segments : List Segment} {cells : List (List Cell)}
    (h : List.Forall₂ (Lies source t) segments cells) {start stop : Nat}
    (hc : Contiguous start segments stop) :
    stop = start + cells.flatten.length ∧
      ∀ (i k : Nat) (s : Segment), segments[i]? = some s → k < s.count → ∃ part,
        Lies source t s part ∧ start ≤ s.start ∧
          cells.flatten[s.start - start + k]? = part[k]? := by
  induction h generalizing start with
  | nil => exact ⟨(show start = stop from hc).symm, fun i k s hi => nomatch hi⟩
  | @cons t part rest parts hlies _ ih =>
    obtain ⟨hstart, hrest⟩ := hc
    obtain ⟨hstop, hall⟩ := ih hrest
    have hend : t.stop = start + part.length := by rw [Segment.stop, hstart, hlies.count_eq]
    refine ⟨by rw [hstop, hend, List.flatten_cons, List.length_append]; omega, fun i k s hi hk => ?_⟩
    cases i with
    | zero =>
      obtain rfl := Option.some.inj hi
      refine ⟨part, hlies, Nat.le_of_eq hstart.symm, ?_⟩
      rw [hstart, Nat.sub_self, Nat.zero_add, List.flatten_cons,
        List.getElem?_append_left (hlies.count_eq ▸ hk)]
    | succ i =>
      obtain ⟨part', hpart', hle, hget⟩ := hall i k s hi hk
      refine ⟨part', hpart', by omega, ?_⟩
      rw [List.flatten_cons, List.getElem?_append_right (by omega), ← hget]
      congr 1
      omega

/-- **Segments that lie behind each other** are a column of their cells. -/
theorem refines_of_lies {t : ColumnType} (ht : t.isNested = false) {policy : SegmentPolicy}
    {segments : List Segment} {parts : List (List Cell)} {rows : Nat}
    (h : List.Forall₂ (Lies source t) segments parts) (hc : Contiguous 0 segments rows) :
    Refines source ⟨t, policy, segments, rows⟩ parts.flatten ∧
      Cut (segments.map Segment.bounds) rows ⟨t, policy, segments, rows⟩ := by
  have hmem : ∀ s ∈ segments, ∃ part, Lies source t s part := by
    intro s hs
    obtain ⟨part, -, hpart⟩ := exists_mem_right_of_forall₂ h hs
    exact ⟨part, hpart⟩
  have hsound : Sound ⟨t, policy, segments, rows⟩ := by
    refine ⟨ht, hc, fun s hs => ?_⟩
    obtain ⟨part, hpart⟩ := hmem s hs
    exact ⟨hpart.sound, hpart.type_eq⟩
  obtain ⟨hlast, hall⟩ := getElem?_flatten h hc
  -- Each cell is found in the segment of its row.
  have hcell : ∀ row cell, parts.flatten[row]? = some cell →
      under ⟨t, policy, segments, rows⟩ source row = .ok cell.value ∧
      chain ⟨t, policy, segments, rows⟩ row = [] ∧ cell.versions = [] ∧
      cell.value.fits t = true := by
    intro row cell hrow
    have hlt : row < rows := by
      have := (List.getElem?_eq_some_iff.mp hrow).1
      omega
    obtain ⟨i, s, hl, hi, hle, hstop⟩ := locate_of_lt hsound hlt
    have hplace : row - s.start < s.count := by
      unfold Segment.stop at hstop
      omega
    obtain ⟨part, hpart, -, hget⟩ := hall i (row - s.start) s hi hplace
    rw [Nat.sub_zero, Nat.add_sub_cancel' hle, hrow] at hget
    obtain ⟨hunder, hversions, hfits⟩ := hpart.cell _ cell hget.symm
    refine ⟨?_, ?_, hversions, hfits⟩
    · rw [under, hl]
      exact hunder
    · rw [chain, hl]
      exact hpart.chain_eq _
  constructor
  · refine ⟨hsound, hlast.trans (Nat.zero_add _), fun row cell h => (hcell row cell h).1,
      fun row cell h => ?_, fun cell h => ?_⟩
    · obtain ⟨-, hchain, hversions, -⟩ := hcell row cell h
      rw [hchain, hversions]
    · obtain ⟨row, hrow⟩ := List.mem_iff_getElem?.mp h
      obtain ⟨-, -, hversions, hfits⟩ := hcell row cell hrow
      exact ⟨hfits, fun v hv => by rw [hversions] at hv; cases hv⟩
  · refine ⟨hsound, segments, [], none, ⟨by simp, fun s hs => ?_, ?_, ?_⟩, rfl, hc⟩
    · obtain ⟨part, hpart⟩ := hmem s hs
      exact ⟨hpart.closed, Nat.le_of_eq hpart.capacity_eq.symm⟩
    all_goals rintro _ ⟨⟩

/-- **A column starts as cells without versions.** -/
theorem Starts.refines {d : Disk} (h : Starts d.source c cells) :
    Refines d.source c cells ∧ c.Cut c.boundaries c.rows := by
  cases h with
  | @new t policy c hok =>
    have hcut := cut_new hok
    obtain ⟨rfl, hsound⟩ := fresh_ok hok
    refine ⟨⟨hsound, rfl, ?_, ?_, ?_⟩, hcut⟩
    · rintro row cell ⟨⟩
    · rintro row cell ⟨⟩
    · rintro _ ⟨⟩
  | @stored t policy c segments cells ht hsegments hok =>
    obtain ⟨rows, hrows, hc⟩ := bind_eq_ok.mp hok
    obtain rfl := Except.ok.inj hc
    exact refines_of_lies ht (hsegments.imp fun s part hs => hs.lies ht)
      (contiguous_of_rowsFrom hrows)

/-! ## Runs -/

/-- **Whatever is done to a column in a run is done to its cells.** -/
theorem Refines.run (h : Refines source c cells) (hcut : c.Cut old base)
    (hp : 0 < c.policy.capacity) {xs : List Change} (hx : ∀ x ∈ xs, x.Typed) {rs : List Answer}
    (hrun : c.run xs = (rs, c')) (hcalm : ∀ r ∈ rs, r ≠ .error (.vector .outOfRange)) :
    ∃ cells', Cell.Steps c.type xs rs cells cells' ∧ Refines source c' cells' ∧
      c'.Cut old base ∧ c'.type = c.type ∧ c'.policy = c.policy := by
  induction xs generalizing c cells rs with
  | nil =>
    obtain ⟨rfl, rfl⟩ := Prod.mk.inj hrun
    exact ⟨cells, .nil, h, hcut, rfl, rfl⟩
  | cons x rest ih =>
    rw [Column.run] at hrun
    obtain hpanic | ⟨r, d, cells₁, hchange, hstep, hrefines, hcut₁, htype, hpolicy⟩ :=
      h.change hcut hp (hx x List.mem_cons_self)
    · obtain ⟨rfl, -⟩ := Prod.mk.inj hrun
      exact absurd hpanic (hcalm _ List.mem_cons_self)
    · rw [hchange] at hrun
      obtain ⟨rfl, hrest⟩ := Prod.mk.inj hrun
      obtain ⟨cells₂, hsteps, hrefines₂, hcut₂, htype₂, hpolicy₂⟩ :=
        ih hrefines hcut₁ (hpolicy ▸ hp) (fun y hy => hx y (List.mem_cons_of_mem _ hy))
          (Prod.ext rfl hrest) fun a ha => hcalm a (List.mem_cons_of_mem _ ha)
      exact ⟨cells₂, .cons hstep (htype ▸ hsteps), hrefines₂, hcut₂, htype₂.trans htype,
        hpolicy₂.trans hpolicy⟩

/-- **It makes no difference to the cells** which stored values are kept. -/
theorem Refines.kept {d : Disk} (h : Refines d.source c cells) {decoded : Decoded}
    (hk : decoded.Kept d fun _ => True) : Refines (.ofDisk d decoded) c cells where
  sound := h.sound
  rows_eq := h.rows_eq
  under_eq row cell hcell := by
    rw [under_congr fun v _ => hk.load_eq trivial]
    exact h.under_eq row cell hcell
  chain_eq := h.chain_eq
  fits := h.fits

/-- Changes of a column from where it starts, and what they came to.  Its segments are made for a row
at least, and none of the changes went out of range: no row was missing from a vector that it was to be
taken from, and no segment was larger than what there can be room for. -/
structure Changed (d : Disk) (c₀ : Column) (cells₀ : List Cell) (xs : List Change)
    (rs : List Answer) (c : Column) : Prop where
  starts : Starts d.source c₀ cells₀
  capacity : 0 < c₀.policy.capacity
  typed : ∀ x ∈ xs, x.Typed
  run : c₀.run xs = (rs, c)
  calm : ∀ r ∈ rs, r ≠ .error (.vector .outOfRange)

variable {d d' : Disk} {c₀ c₀' : Column} {cells₀ cells₀' : List Cell} {xs xs' : List Change}
  {rs rs' : List Answer}

theorem Changed.cut (h : Changed d c₀ cells₀ xs rs c) :
    c.Cut c₀.boundaries c₀.rows ∧ 0 < c.policy.capacity ∧ ∃ cells,
      Cell.Steps c.type xs rs cells₀ cells ∧ Refines d.source c cells := by
  obtain ⟨hrefines, hcut⟩ := h.starts.refines
  obtain ⟨cells, hsteps, hrefines', hcut', htype, hpolicy⟩ :=
    hrefines.run hcut h.capacity h.typed h.run h.calm
  exact ⟨hcut', hpolicy ▸ h.capacity, cells, htype ▸ hsteps, hrefines'⟩

end Column
end ColumnStore
