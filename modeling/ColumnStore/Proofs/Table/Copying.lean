/-
# Copies of what a snapshot sees

A table is copied a few rows at a time.  Each fresh column gets what a reader of the rows gets, in the
order of the rows, and nothing of rows that the snapshot does not see (`Table.materialize_ok`).
-/

import ColumnStore.Proofs.Column.Appending
import ColumnStore.Proofs.Column.Scanning
import ColumnStore.Proofs.Segment.Decoding
import ColumnStore.Proofs.Storage.Stored
import ColumnStore.Proofs.Table.Loading

namespace ColumnStore

/-! ## What can be read -/

/-- A value that is read from a segment is of its type. -/
theorem Segment.under_fits {s : Segment} (h : s.Sound) (ht : s.type.isNested = false) {d : Disk}
    {i : Nat} {x : Scalar} (hx : s.under d.source i = .ok x) : x.fits s.type = true := by
  obtain ⟨v, hv, hget⟩ := under_eq_ok.mp hx
  obtain ⟨hs, htype⟩ : v.Sound ∧ v.type = s.type := by
    have hdata := h.data
    unfold SoundData at hdata
    rw [base] at hv
    cases hd : s.data with
    | buffer w =>
      rw [hd] at hv hdata
      obtain rfl := Except.ok.inj hv
      exact ⟨hdata.1, hdata.2.1⟩
    | sealed image w =>
      rw [hd] at hv hdata
      obtain rfl := Except.ok.inj hv
      exact ⟨hdata.1, hdata.2.1⟩
    | stored w =>
      rw [hd] at hv hdata
      simp only [Reading.result_load] at hv
      obtain ⟨hs, htype, -⟩ := Disk.load_sound (hdata.1 ▸ ht) hv
      exact ⟨hs, htype.trans hdata.1⟩
  exact htype ▸ hs.typed i x hget

namespace Column

/-- **A column that can be read** has values of its type. -/
theorem legible {c : Column} (h : c.Sound) {d : Disk} {source : Source}
    (hsource : ∀ row, c.under source row = c.under d.source row) (hr : c.Readable source)
    (hchain : ∀ row, ∀ v ∈ c.chain row, v.value.fits c.type = true) : c.Legible source := by
  refine ⟨h, fun row hrow => ?_, hchain⟩
  obtain ⟨x, hx⟩ := hr row hrow
  refine ⟨x, hx, ?_⟩
  rw [hsource] at hx
  obtain ⟨⟨i, s, p⟩, hl, hx⟩ := bind_eq_ok.mp hx
  obtain ⟨-, hs, -⟩ := of_locate h hl
  obtain ⟨hsound, htype⟩ := h.segment s (List.mem_of_getElem? hs)
  exact htype ▸ Segment.under_fits hsound (htype ▸ h.plain) hx

/-- A fresh column with what a snapshot sees in some rows of another one. -/
structure CopiedTo (source : Source) (s : Snapshot) (rows : List Nat) (c fresh : Column) : Prop where
  sound : fresh.Sound
  type_eq : fresh.type = c.type
  policy_eq : fresh.policy = c.policy
  rows_eq : fresh.rows = rows.length
  chain_eq : ∀ r, fresh.chain r = []
  stored_eq : fresh.stored = []
  imaged : fresh.Imaged
  under_eq : ∀ source' k row, rows[k]? = some row → fresh.under source' k = c.value source row s

variable {source : Source} {s : Snapshot} {c fresh fresh' : Column} {rows : List Nat}

/-- **Rows that a copy is extended by** have the values that they are to have. -/
theorem CopiedTo.under_grows (h : CopiedTo source s rows c fresh) {values : List Scalar}
    (hg : Grows fresh fresh' values) {more : List Nat}
    (hvalues : ∀ (k : Nat) (x : Scalar), values[k]? = some x →
      ∃ row, more[k]? = some row ∧ c.value source row s = .ok x)
    (source' : Source) {k row : Nat} (hk : k < fresh'.rows) (hrow : (rows ++ more)[k]? = some row) :
    fresh'.under source' k = c.value source row s := by
  rcases Nat.lt_or_ge k rows.length with hlt | hge
  · rw [List.getElem?_append_left hlt] at hrow
    rw [hg.under_old source' k (h.rows_eq ▸ hlt)]
    exact h.under_eq source' k row hrow
  · rw [List.getElem?_append_right hge] at hrow
    have hlt : k - rows.length < values.length := by
      rw [hg.rows_eq, h.rows_eq] at hk
      omega
    have hnew := hg.under_new source' _ _ (List.getElem?_eq_getElem hlt)
    rw [h.rows_eq, Nat.add_sub_cancel' hge] at hnew
    obtain ⟨row', hrow', hx⟩ := hvalues _ _ (List.getElem?_eq_getElem hlt)
    obtain rfl := Option.some.inj (hrow'.symm.trans hrow)
    exact hnew.trans hx.symm

/-- The values of rows of a part, which are among those that were read. -/
theorem lists_of_scan (hc : c.Legible source) {start count : Nat} {visible : List Nat}
    (hvisible : ∀ i ∈ visible, i < count) {v : ValueVector}
    (hscan : (c.scan source start count s).result = .ok v) : ∃ values, v.Lists visible values ∧
      ∀ (k : Nat) (x : Scalar), values[k]? = some x →
        ∃ row, (visible.map (start + ·))[k]? = some row ∧ c.value source row s = .ok x := by
  obtain ⟨-, -, -, hget⟩ := scan_values hc hscan
  refine ⟨visible.map fun i => (v.get? i).getD .null, ?_, fun k x hk => ?_⟩
  · rw [ValueVector.Lists, List.map_map]
    refine List.map_congr_left fun i hi => ?_
    obtain ⟨x, -, hx⟩ := hget i (hvisible i hi)
    rw [hx]
    exact (congrArg (fun o => some (o.getD Scalar.null)) hx).symm
  · rw [List.getElem?_map] at hk
    obtain ⟨i, hi, rfl⟩ := Option.map_eq_some_iff.mp hk
    obtain ⟨x, hx, hgx⟩ := hget i (hvisible i (List.mem_of_getElem? hi))
    refine ⟨start + i, by rw [List.getElem?_map, hi, Option.map_some], ?_⟩
    rw [hx, hgx]
    rfl

/-- **The rows of a part are put behind the rows of the parts before.** -/
theorem CopiedTo.append (h : CopiedTo source s rows c fresh) (hc : c.Legible source)
    (hp : 0 < c.policy.capacity) {start count : Nat} {visible : List Nat}
    (hvisible : ∀ i ∈ visible, i < count) {v : ValueVector}
    (hscan : (c.scan source start count s).result = .ok v)
    (happend : fresh.append v visible = (.ok (), fresh')) :
    CopiedTo source s (rows ++ visible.map (start + ·)) c fresh' := by
  obtain ⟨values, hlists, hvalues⟩ := lists_of_scan hc hvisible hscan
  have hp' := h.policy_eq ▸ hp
  have hg := append_ok h.sound hp' hlists happend
  have hrows : fresh'.rows = (rows ++ visible.map (start + ·)).length := by
    have hlength : visible.length = values.length := by simpa using congrArg List.length hlists
    rw [hg.rows_eq, h.rows_eq, List.length_append, List.length_map, hlength]
  refine ⟨hg.sound, hg.type_eq.trans h.type_eq, hg.policy_eq.trans h.policy_eq, hrows,
    fun r => (hg.chain_eq r).trans (h.chain_eq r),
    (stored_append h.sound hp' hlists happend).trans h.stored_eq,
    h.imaged.append h.sound hp' hlists happend, fun source' k row hk => ?_⟩
  exact h.under_grows hg hvalues source' (hrows ▸ (List.getElem?_eq_some_iff.mp hk).1) hk

/-- A column without rows is a copy of none. -/
theorem copiedTo_new (h : Column.new c.type c.policy = .ok fresh) :
    CopiedTo source s [] c fresh := by
  obtain ⟨rfl, hsound⟩ := fresh_ok h
  refine ⟨hsound, rfl, rfl, rfl, fun r => chain_of_le (Nat.zero_le r), rfl, ?_, ?_⟩
  · exact fun s hs => absurd hs List.not_mem_nil
  · rintro source' k row ⟨⟩

/-- Reads a part of a column and adds the given rows of it to a fresh one. -/
def copyPart (source : Source) (s : Snapshot) (start count : Nat) (visible : List Nat)
    (c fresh : Column) : Except StorageError Column := do
  let values ← (c.scan source start count s).result
  (fresh.append values visible).1
  pure (fresh.append values visible).2

end Column

/-- A result that is as it should be, or a refusal for a reason. -/
def Yields {α : Type} (good : α → Prop) (why : StorageError → Prop) : Except StorageError α → Prop
  | .ok a => good a
  | .error e => why e

theorem Yields.bind {α β : Type} {good : α → Prop} {good' : β → Prop} {why : StorageError → Prop}
    {x : Except StorageError α} {f : α → Except StorageError β} (h : Yields good why x)
    (hf : ∀ a, good a → Yields good' why (f a)) : Yields good' why (x >>= f) := by
  cases x with
  | error e => exact h
  | ok a => exact hf a h

namespace Table

/-- The rows in front of a row that a snapshot sees, in order. -/
def visibleBefore (t : Table) (s : Snapshot) (row : Nat) : List Nat :=
  (List.range row).filter fun r => (t.stamps? r).any (·.isVisible s)

/-- The rows among the `count` from `start` on that a snapshot sees, counted from `start`. -/
def visibleAmong (t : Table) (s : Snapshot) (start count : Nat) : List Nat :=
  (List.range count).filter fun i => (t.stamps? (start + i)).any (·.isVisible s)

/-- The rows that a snapshot sees, in order. -/
def visibleRows (t : Table) (s : Snapshot) : List Nat :=
  (List.range t.rows).filter fun r => (t.stamps? r).any (·.isVisible s)

theorem lt_of_mem_visibleRows {t : Table} {s : Snapshot} {row : Nat} (h : row ∈ t.visibleRows s) :
    row < t.rows := List.mem_range.mp (List.mem_filter.mp h).1

theorem length_visibleRows_le (t : Table) (s : Snapshot) : (t.visibleRows s).length ≤ t.rows :=
  Nat.le_trans (List.length_filter_le ..) (Nat.le_of_eq List.length_range)

/-- A table of which every row can be read, with values of the types of its columns. -/
structure Legible (t : Table) (source : Source) : Prop where
  sound : t.Sound
  columns : ∀ c ∈ t.columns, c.Legible source

variable {source : Source} {s : Snapshot} {t : Table}

theorem visibleBefore_add (t : Table) (s : Snapshot) (start count : Nat) :
    t.visibleBefore s (start + count) =
      t.visibleBefore s start ++ (t.visibleAmong s start count).map (start + ·) := by
  rw [visibleBefore, List.range_add, List.filter_append, List.filter_map]
  rfl

theorem lt_of_mem_visibleAmong {start count i : Nat} (h : i ∈ t.visibleAmong s start count) :
    i < count := List.mem_range.mp (List.mem_filter.mp h).1

/-- **The rows of a part that are seen.** -/
theorem visible?_ok {start count : Nat} {visible : List Nat}
    (h : t.versions.visible? start count s = some visible) :
    (count ≠ 0 → start + count ≤ t.rows) ∧ visible = t.visibleAmong s start count := by
  rw [RowVersions.visible?] at h
  split at h
  · cases h
  · rename_i hrange
    refine ⟨fun hc => ?_, ?_⟩
    · simp only [Bool.and_eq_true, decide_eq_true_eq, not_and] at hrange
      by_contra hlt
      exact hrange (Nat.lt_of_not_le hlt) hc
    · obtain ⟨parts, hparts, rfl⟩ := Option.map_eq_some_iff.mp h
      have hall := forall₂_of_mapM hparts
      clear h hparts hrange
      rw [visibleAmong]
      generalize List.range count = is at hall
      induction hall with
      | nil => rfl
      | @cons i part is parts hi _ ih =>
        obtain ⟨seen, hseen, rfl⟩ := Option.map_eq_some_iff.mp hi
        obtain ⟨st, hst, rfl⟩ := Option.map_eq_some_iff.mp hseen
        have hstamps : t.stamps? (start + i) = some st := hst
        rw [List.flatten_cons, ih, List.filter_cons, hstamps, Option.any_some]
        cases st.isVisible s <;> rfl

/-- **Rows that are there** are seen or not. -/
theorem visible?_eq {start count : Nat} (h : start + count ≤ t.rows) :
    t.versions.visible? start count s = some (t.visibleAmong s start count) := by
  have hrange : ¬(t.versions.size < start + count && count ≠ 0) = true := by
    simp only [Bool.and_eq_true, decide_eq_true_eq, not_and]
    exact fun hlt => absurd hlt (Nat.not_lt.mpr h)
  have hseen : t.versions.visible? start count s = some (List.flatten ((List.range count).map
      fun i => if (t.stamps? (start + i)).any (·.isVisible s) then [i] else [])) := by
    rw [RowVersions.visible?, if_neg hrange, mapM_eq_map fun i hi => ?_, Option.map_some]
    have hlt := List.mem_range.mp hi
    obtain ⟨st, hst⟩ : ∃ st, t.stamps? (start + i) = some st := stamps?_of_lt (by omega)
    have hrow : t.versions.isVisible? (start + i) s = some (st.isVisible s) :=
      congrArg (Option.map fun r : RowStamps => r.isVisible s) hst
    rw [hrow, hst, Option.map_some, Option.any_some]
  rw [hseen, (visible?_ok hseen).2]

/-- **A part of a table is copied** as each of its columns is. -/
theorem copyVisible_yields {good good' : Column → Column → Prop} {why : StorageError → Prop}
    {start count : Nat} {visible : List Nat} {columns fresh : List Column}
    (hpart : ∀ c ∈ columns, ∀ f, good c f →
      Yields (good' c) why (c.copyPart source s start count visible f))
    (h : List.Forall₂ good columns fresh) :
    Yields (List.Forall₂ good' columns) why
      (copyVisible source s start count visible columns fresh).result := by
  induction h with
  | nil => exact .nil
  | @cons c f columns fresh hf _ ih =>
    have hhead := hpart c List.mem_cons_self f hf
    have hrest := ih fun c hc => hpart c (List.mem_cons_of_mem _ hc)
    unfold Column.copyPart at hhead
    rw [copyVisible]
    simp only [Reading.result_bind, Reading.result_of]
    cases hv : (c.scan source start count s).result with
    | error e =>
      rw [hv] at hhead
      exact hhead
    | ok v =>
      rw [hv, ok_bind] at hhead
      rw [ok_bind]
      cases ha : (f.append v visible).1 with
      | error e =>
        rw [ha] at hhead
        exact hhead
      | ok u =>
        rw [ha] at hhead
        exact hrest.bind fun more hmore => .cons hhead hmore

/-- **A table is copied part by part.** -/
theorem materializeFrom_yields {good : List Nat → Column → Column → Prop}
    {why : StorageError → Prop} {step : Nat} (hstep : 0 < step)
    (hpart : ∀ start count, start + count ≤ t.rows → count ≤ step → ∀ c ∈ t.columns, ∀ f,
      good (t.visibleBefore s start) c f → Yields (good (t.visibleBefore s (start + count)) c) why
        (c.copyPart source s start count (t.visibleAmong s start count) f))
    {start : Nat} (hstart : start ≤ t.rows) {fresh : List Column}
    (h : List.Forall₂ (good (t.visibleBefore s start)) t.columns fresh) :
    Yields (List.Forall₂ (good (t.visibleRows s)) t.columns) why
      (t.materializeFrom source s step start fresh).result := by
  induction hn : t.rows - start using Nat.strongRecOn generalizing start fresh with
  | ind n ih =>
    rw [materializeFrom]
    split
    · rename_i hend
      obtain rfl : start = t.rows := Nat.le_antisymm hstart (hend.resolve_right (by omega))
      exact h
    · have hcount : start + min step (t.rows - start) ≤ t.rows := by omega
      have hnext : ∀ next,
          List.Forall₂ (good (t.visibleBefore s (start + min step (t.rows - start)))) t.columns next →
          Yields (List.Forall₂ (good (t.visibleRows s)) t.columns) why
            (t.materializeFrom source s step (start + min step (t.rows - start)) next).result :=
        fun next hf => ih _ (by omega) hcount hf rfl
      simp only [Reading.result_bind, Reading.result_of, visible?_eq hcount, present, ok_bind]
      split
      · rename_i hnone
        refine hnext fresh ?_
        rw [visibleBefore_add, List.isEmpty_iff.mp hnone, List.map_nil, List.append_nil]
        exact h
      · rw [Reading.result_bind]
        exact (copyVisible_yields (hpart start _ hcount (Nat.min_le_left _ _)) h).bind hnext

/-- **A table is copied** into columns that start without rows. -/
theorem materialize_yields {good : List Nat → Column → Column → Prop} {why : StorageError → Prop}
    (htypes : t.types = t.columns.map (·.type)) (hplain : ∀ c ∈ t.columns, c.type.isNested = false)
    (hempty : ∀ c ∈ t.columns, ∀ f, Column.new c.type t.policy = .ok f → good [] c f)
    {vectorSize : Nat}
    (hpart : ∀ start count, start + count ≤ t.rows → count ≤ max vectorSize 1 → ∀ c ∈ t.columns,
      ∀ f, good (t.visibleBefore s start) c f →
        Yields (good (t.visibleBefore s (start + count)) c) why
          (c.copyPart source s start count (t.visibleAmong s start count) f)) :
    Yields (List.Forall₂ (good (t.visibleRows s)) t.columns) why
      (t.materialize source s vectorSize).result := by
  obtain ⟨fresh, hfresh⟩ : ∃ fresh,
      (t.columns.map (·.type)).mapM (fun type => Column.new type t.policy) = .ok fresh := by
    refine exists_mapM_ok fun type htype => ?_
    obtain ⟨c, hc, rfl⟩ := List.mem_map.mp htype
    exact ⟨{ type := c.type, policy := t.policy }, by rw [Column.new, hplain c hc]; rfl⟩
  simp only [materialize, Reading.result_bind, Reading.result_of, htypes, hfresh, ok_bind]
  refine materializeFrom_yields (by omega) hpart (Nat.zero_le _) ?_
  have hnew := forall₂_of_mapM_ok hfresh
  rw [List.forall₂_map_left_iff] at hnew
  refine forall₂_iff_getElem?.mpr ⟨hnew.length_eq, fun i c f hc hf => ?_⟩
  exact hempty c (List.mem_of_getElem? hc) f ((forall₂_iff_getElem?.mp hnew).2 i c f hc hf)

/-- **A copy of a table** has a fresh column for each column, with the rows that the snapshot sees. -/
theorem materialize_ok (h : t.Legible source) {vectorSize : Nat} {columns : List Column}
    (hok : (t.materialize source s vectorSize).result = .ok columns) :
    List.Forall₂ (Column.CopiedTo source s (t.visibleRows s)) t.columns columns := by
  have hpolicy : ∀ c ∈ t.columns, c.policy = t.policy := by
    intro c hc
    obtain ⟨i, hi⟩ := List.mem_iff_getElem?.mp hc
    obtain ⟨d, -, -, hd⟩ := holds_of_some h.sound hi
    exact hd.policy_eq
  have hyields : Yields (List.Forall₂ (Column.CopiedTo source s (t.visibleRows s)) t.columns)
      (fun _ => True) (t.materialize source s vectorSize).result := by
    refine materialize_yields (map_eq_of_forall₂ (h.sound.columns.imp fun d c hd => hd.type_eq.symm))
      (fun c hc => (h.columns c hc).sound.plain)
      (fun c hc f hf => Column.copiedTo_new ((hpolicy c hc).symm ▸ hf)) ?_
    intro start count _ _ c hc f hf
    cases hpart : c.copyPart source s start count (t.visibleAmong s start count) f with
    | error e => trivial
    | ok f' =>
      obtain ⟨v, hv, hpart⟩ := bind_eq_ok.mp hpart
      obtain ⟨⟨⟩, ha, hpart⟩ := bind_eq_ok.mp hpart
      obtain rfl := Except.ok.inj hpart
      rw [visibleBefore_add]
      exact hf.append (h.columns c hc) (hpolicy c hc ▸ h.sound.capacity)
        (fun i => lt_of_mem_visibleAmong) hv (Prod.ext ha rfl)
  rw [hok] at hyields
  exact hyields

/-! ## What was decoded -/

section Honest

variable {safe : StoredValues → Prop}

theorem honest_copyVisible {columns : List Column} (h : ∀ c ∈ columns, c.Safe safe)
    (start count : Nat) (visible : List Nat) (fresh : List Column) :
    (copyVisible source s start count visible columns fresh).Honest source safe := by
  induction columns generalizing fresh with
  | nil =>
    rw [copyVisible]
    · exact Reading.honest_pure _
    · exact fun _ _ _ _ hc => by cases hc
  | cons c rest ih =>
    cases fresh with
    | nil =>
      rw [copyVisible]
      · exact Reading.honest_pure _
      · exact fun _ _ _ _ _ hf => by cases hf
    | cons f more =>
      rw [copyVisible]
      refine Reading.honest_bind (Column.honest_scan (h c List.mem_cons_self) _ _ _) fun v _ => ?_
      refine Reading.honest_bind (Reading.honest_of _) fun _ _ => ?_
      exact Reading.honest_bind (ih (fun c hc => h c (List.mem_cons_of_mem _ hc)) more) fun _ _ =>
        Reading.honest_pure _

theorem honest_materializeFrom (h : t.Safe safe) (step start : Nat) (fresh : List Column) :
    (t.materializeFrom source s step start fresh).Honest source safe := by
  induction hn : t.rows - start using Nat.strongRecOn generalizing start fresh with
  | ind n ih =>
    rw [materializeFrom]
    split
    · exact Reading.honest_pure _
    · rename_i hend
      refine Reading.honest_bind (Reading.honest_of _) fun visible _ => ?_
      have hnext := fun next => ih (t.rows - (start + min step (t.rows - start))) (by omega)
        (start + min step (t.rows - start)) next rfl
      dsimp only
      split
      · exact Reading.honest_bind (Reading.honest_pure _) fun next _ => hnext next
      · exact Reading.honest_bind (honest_copyVisible (fun c hc => h.column hc) _ _ _ _)
          fun next _ => hnext next

/-- **A copy decodes only what the table stores.** -/
theorem honest_materialize (h : t.Safe safe) (vectorSize : Nat) :
    (t.materialize source s vectorSize).Honest source safe :=
  Reading.honest_bind (Reading.honest_of _) fun _ _ => honest_materializeFrom h _ _ _

end Honest

end Table
end ColumnStore
