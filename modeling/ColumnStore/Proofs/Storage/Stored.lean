/-
# The stored segments of a table

What is read from a table comes from its stored segments, so all readings and scans are honest when
these are safe.  No write to a table adds a stored segment or takes one away.
-/

import ColumnStore.Proofs.Storage.Honesty
import ColumnStore.Proofs.Table.Appending
import ColumnStore.Proofs.Table.Settling
import ColumnStore.Table.Scan

namespace ColumnStore

namespace Segment

/-- The values of a segment that is stored. -/
def stored? (s : Segment) : Option StoredValues :=
  match s.data with
  | .stored v => some v
  | _ => none

/-- A segment whose values, if they are stored, are safe. -/
def Safe (safe : StoredValues → Prop) (s : Segment) : Prop := ∀ v, s.stored? = some v → safe v

theorem base_congr {s : Segment} {source source' : Source}
    (h : s.Safe fun v => source'.load v = source.load v) :
    (s.base source').result = (s.base source).result := by
  unfold base
  cases hd : s.data with
  | stored v => simpa only [Reading.result_load] using h v (by rw [stored?, hd])
  | _ => rfl

variable {source : Source} {safe : StoredValues → Prop}

theorem honest_base {s : Segment} (h : s.Safe safe) : (s.base source).Honest source safe := by
  unfold base
  cases hd : s.data with
  | stored v => exact Reading.honest_load (h v (by rw [stored?, hd]))
  | _ => exact Reading.honest_pure _

theorem honest_fetch {s : Segment} (h : s.Safe safe) (row : Nat) (snapshot : Snapshot) :
    (s.fetch source row snapshot).Honest source safe := by
  unfold fetch
  cases s.overlay.resolve? row snapshot with
  | some x => exact Reading.honest_pure x
  | none =>
    refine Reading.honest_bind (honest_base h) fun base _ => ?_
    cases base.get? row with
    | some x => exact Reading.honest_pure x
    | none => exact Reading.honest_fail _

theorem honest_scan {s : Segment} (h : s.Safe safe) (start stop : Nat) (snapshot : Snapshot)
    (out : ValueVector) (slot : Nat) :
    (s.scan source start stop snapshot out slot).Honest source safe := by
  unfold scan
  by_cases hstop : s.count < stop
  · simp only [hstop, if_true]
    exact Reading.honest_fail _
  · simp only [hstop, if_false]
    refine Reading.honest_bind (honest_base h) fun base _ => ?_
    split
    · exact Reading.honest_fail _
    · split
      · exact Reading.honest_fail _
      · exact Reading.honest_of _

end Segment

namespace Column

/-- The stored segments of a column. -/
def stored (c : Column) : List StoredValues := c.segments.filterMap Segment.stored?

/-- A column whose stored segments are safe. -/
def Safe (safe : StoredValues → Prop) (c : Column) : Prop := ∀ v ∈ c.stored, safe v

theorem Safe.segment {safe : StoredValues → Prop} {c : Column} (h : c.Safe safe) {s : Segment}
    (hs : s ∈ c.segments) : s.Safe safe := fun v hv => h v (List.mem_filterMap.mpr ⟨s, hs, hv⟩)

theorem mem_of_locate {c : Column} {row i p : Nat} {s : Segment}
    (h : c.locate row = .ok (i, s, p)) : c.segments[i]? = some s := by
  unfold locate at h
  cases hi : c.segmentIndex? row with
  | none => rw [hi] at h; cases h
  | some j =>
    rw [hi] at h
    cases hs : c.segments[j]? with
    | none => simp only [hs] at h; cases h
    | some t =>
      simp only [hs] at h
      cases h
      exact hs

/-- **What is under the updates depends on the stored segments alone.** -/
theorem under_congr {c : Column} {source source' : Source}
    (h : c.Safe fun v => source'.load v = source.load v) (row : Nat) :
    c.under source' row = c.under source row := by
  unfold under
  cases hl : c.locate row with
  | error e => rfl
  | ok found =>
    obtain ⟨i, s, p⟩ := found
    have hs := h.segment (List.mem_of_getElem? (mem_of_locate hl))
    simp only [ok_bind, Segment.under, Segment.base_congr hs]

theorem filterMap_set {segments : List Segment} {i : Nat} {s s' : Segment}
    (hi : segments[i]? = some s) (h : s'.stored? = s.stored?) :
    (segments.set i s').filterMap Segment.stored? = segments.filterMap Segment.stored? := by
  induction segments generalizing i with
  | nil => rfl
  | cons t rest ih =>
    cases i with
    | zero =>
      obtain rfl : t = s := by simpa using hi
      simp only [List.set_cons_zero, List.filterMap_cons, h]
    | succ i =>
      simp only [List.set_cons_succ, List.filterMap_cons, ih (show rest[i]? = some s by simpa using hi)]

theorem stored_update {c c' : Column} {row : Nat} {v : Version} (h : c.update row v = .ok c') :
    c'.stored = c.stored := by
  unfold update at h
  split at h
  · cases h
  · obtain ⟨⟨i, s, p⟩, hl, hc⟩ := bind_eq_ok.mp h
    obtain rfl := Except.ok.inj hc
    exact filterMap_set (mem_of_locate hl) rfl

theorem stored_revertUpdate {c c' : Column} {row : Nat} {id : Stamp} {x : Option Scalar}
    (h : c.revertUpdate row id = .ok (x, c')) : c'.stored = c.stored := by
  unfold revertUpdate at h
  obtain ⟨⟨i, s, p⟩, hl, hc⟩ := bind_eq_ok.mp h
  obtain ⟨-, rfl⟩ := Prod.mk.inj (Except.ok.inj hc)
  exact filterMap_set (mem_of_locate hl) rfl

theorem Keeps.stored_eq {c c' : Column} (h : Keeps c c') : c'.stored = c.stored := by
  unfold stored
  have hs := h.segments
  generalize c.segments = a, c'.segments = b at hs ⊢
  induction hs with
  | nil => rfl
  | cons hr _ ih => simp only [List.filterMap_cons, Segment.stored?, hr.data_eq, ih]

/-- **Adding rows adds no stored segment and takes none away.** -/
theorem stored_append {c c' : Column} (h : c.Sound) (hp : 0 < c.policy.capacity)
    {source : ValueVector} {rows : Selection} {values : List Scalar}
    (hl : ValueVector.Lists source rows values) (hok : c.append source rows = (.ok (), c')) :
    c'.stored = c.stored := by
  refine append_keeps (P := fun d => d.stored = c.stored) ?_ h hp hl hok rfl
  rintro c c' front s t u rows taken values hl ⟨⟨v, hopens⟩, -, -, ⟨v', hfills⟩, hlast, rfl⟩ hc
  -- Neither the segment that is filled nor the one that is sealed is stored.
  have hs : s.stored? = none := by rw [Segment.stored?, hopens.fills.data_eq]
  have hu : u.stored? = none := by
    rcases hlast with rfl | hsealed
    · rw [Segment.stored?, hfills.data_eq]
    · obtain ⟨image, rfl, -⟩ := Segment.toSealed_ok hfills hsealed
      rfl
  rw [← hc]
  rcases hopens.segments_eq with hc | ⟨hc, -⟩ <;>
    simp [stored, hc, List.filterMap_append, hu, hs]

section Honest

variable {source : Source} {safe : StoredValues → Prop}

theorem honest_fetch {c : Column} (h : c.Safe safe) (row : Nat) (snapshot : Snapshot) :
    (c.fetch source row snapshot).Honest source safe := by
  refine Reading.honest_bind (Reading.honest_of _) fun found hl => ?_
  obtain ⟨i, s, p⟩ := found
  exact Segment.honest_fetch (h.segment (List.mem_of_getElem? (mem_of_locate hl))) _ _

theorem honest_scanSegments {segments : List Segment} (h : ∀ s ∈ segments, s.Safe safe)
    (start stop : Nat) (snapshot : Snapshot) (slot : Nat) (out : ValueVector) :
    (scanSegments source start stop snapshot slot out segments).Honest source safe := by
  induction segments generalizing out with
  | nil => exact Reading.honest_pure _
  | cons s rest ih =>
    have hrest := fun out => ih (fun t ht => h t (List.mem_cons_of_mem _ ht)) out
    unfold scanSegments
    dsimp only
    split
    · exact Reading.honest_bind (Segment.honest_scan (h s List.mem_cons_self) _ _ _ _ _)
        fun out _ => hrest out
    · exact hrest out

theorem honest_scan {c : Column} (h : c.Safe safe) (start count : Nat) (snapshot : Snapshot) :
    (c.scan source start count snapshot).Honest source safe := by
  unfold scan
  split
  · exact Reading.honest_fail _
  · refine Reading.honest_bind (Reading.honest_of _) fun _ _ => ?_
    exact Reading.honest_bind (Reading.honest_of _) fun _ _ =>
      honest_scanSegments (fun s hs => h.segment hs) _ _ _ _ _

end Honest

end Column

namespace Table

/-- The stored segments of a table. -/
def stored (t : Table) : List StoredValues := t.columns.flatMap Column.stored

/-- A table whose stored segments are safe. -/
def Safe (safe : StoredValues → Prop) (t : Table) : Prop := ∀ v ∈ t.stored, safe v

theorem Safe.column {safe : StoredValues → Prop} {t : Table} (h : t.Safe safe) {c : Column}
    (hc : c ∈ t.columns) : c.Safe safe := fun v hv => h v (List.mem_flatMap.mpr ⟨c, hc, hv⟩)

theorem Keeps.stored_eq {t t' : Table} (h : Keeps t t') : t'.stored = t.stored := by
  unfold stored
  have hk := h.columns
  generalize t.columns = a, t'.columns = b at hk ⊢
  induction hk with
  | nil => rfl
  | cons hc _ ih => simp only [List.flatMap_cons, hc.stored_eq, ih]

/-- **What is under the updates depends on the stored segments alone.** -/
theorem under_congr {t : Table} {source source' : Source}
    (h : t.Safe fun v => source'.load v = source.load v) (i row : Nat) :
    t.under source' i row = t.under source i row := by
  cases hc : t.columns[i]? with
  | none => rw [under, under, column_of_none hc]; rfl
  | some c =>
    rw [under_of_some hc, under_of_some hc]
    exact Column.under_congr (h.column (List.mem_of_getElem? hc)) row

theorem stored_appendColumns {slots : Selection} {policy : SegmentPolicy}
    (hp : 0 < policy.capacity) {cs cs' : List Column} {vs : List ValueVector}
    (hlen : cs.length = vs.length) {values : Nat → List Scalar}
    (hcs : ∀ c ∈ cs, c.Sound ∧ c.policy = policy)
    (hl : ∀ (j : Nat) (v : ValueVector), vs[j]? = some v → v.Lists slots (values j))
    (hok : appendColumns slots cs vs = (.ok (), cs')) :
    cs'.flatMap Column.stored = cs.flatMap Column.stored := by
  have hall := appendColumns_all hlen hok
  have hstored : (cs.zip vs).map (Column.stored ∘ Prod.fst) = cs'.map Column.stored := by
    refine map_eq_of_forall₂ (forall₂_iff_getElem?.mpr ⟨hall.length_eq, fun j p c' hp' hc' => ?_⟩)
    obtain ⟨hc, hv⟩ := List.getElem?_zip_eq_some.mp hp'
    obtain ⟨hs, hpol⟩ := hcs p.1 (List.mem_of_getElem? hc)
    have happend := (forall₂_iff_getElem?.mp hall).2 j p c' hp' hc'
    exact (Column.stored_append hs (hpol ▸ hp) (hl j p.2 hv) happend).symm
  rw [← List.map_map, List.map_fst_zip (Nat.le_of_eq hlen)] at hstored
  rw [List.flatMap_def, List.flatMap_def, hstored]

theorem stored_append {t t' : Table} (h : t.Sound) {vectors : List ValueVector} {slots : Selection}
    {data : List Row} (hd : HoldRows vectors slots data) {stamp : Stamp} {range : Nat × Nat}
    (hok : t.append vectors slots stamp = (.ok range, t')) : t'.stored = t.stored := by
  unfold append at hok
  split at hok
  · cases hok
  rename_i hlen
  have hlen : vectors.length = t.definitions.length := not_not.mp hlen
  cases hc : checkTypes t.types vectors with
  | error e => rw [hc] at hok; cases hok
  | ok u =>
    rw [hc] at hok
    rcases ha : appendColumns slots t.columns vectors with ⟨e | ⟨⟨⟩⟩, cs'⟩ <;> rw [ha] at hok
    · cases hok
    obtain ⟨-, rfl⟩ := Prod.mk.inj hok
    exact stored_appendColumns h.capacity (by rw [length_columns h, hlen]) (fun c hc => by
      obtain ⟨i, hi⟩ := List.mem_iff_getElem?.mp hc
      obtain ⟨d, -, -, hd⟩ := holds_of_some h hi
      exact ⟨hd.sound, hd.policy_eq⟩) hd.lists ha

section Honest

variable {source : Source} {safe : StoredValues → Prop}

theorem honest_updateRows {s : Snapshot} {c : Column} (h : c.Safe safe)
    (targets : List (Nat × Scalar)) : (updateRows source s c targets).Honest source safe := by
  induction targets generalizing c with
  | nil => exact Reading.honest_pure _
  | cons p rest ih =>
    refine Reading.honest_bind (Reading.honest_attempt (Column.honest_fetch h _ _)) fun r _ => ?_
    cases r with
    | error e => exact Reading.honest_pure _
    | ok before =>
      dsimp only
      cases hu : c.update p.1 ⟨s.transaction, p.2⟩ with
      | error e => exact Reading.honest_pure _
      | ok c' =>
        refine Reading.honest_bind (ih fun v hv => h v (Column.stored_update hu ▸ hv)) fun _ _ => ?_
        exact Reading.honest_pure _

theorem honest_update {t : Table} (h : t.Safe safe) (i : Nat) (rows : List Nat)
    (values : List Scalar) (s : Snapshot) :
    (t.update source i rows values s).Honest source safe := by
  unfold update
  cases hc : t.column i with
  | error e => exact Reading.honest_pure _
  | ok c =>
    dsimp only
    split
    · exact Reading.honest_pure _
    · split
      · exact Reading.honest_pure _
      · have hs := h.column (List.mem_of_getElem? (column_eq_ok.mp hc))
        exact Reading.honest_bind (honest_updateRows hs _) fun _ _ => Reading.honest_pure _

theorem honest_revertUpdate {t : Table} (h : t.Safe safe) (i row : Nat) (s : Snapshot)
    (before : Scalar) : (t.revertUpdate source i row s before).Honest source safe := by
  unfold revertUpdate
  cases hc : t.columns[i]? with
  | none => exact Reading.honest_pure _
  | some c =>
    dsimp only
    cases hr : c.revertUpdate row s.transaction with
    | error e => exact Reading.honest_pure _
    | ok found =>
      obtain ⟨_ | x, c'⟩ := found
      · exact Reading.honest_pure _
      · have hs := h.column (List.mem_of_getElem? hc)
        refine Reading.honest_bind (Reading.honest_attempt (Column.honest_fetch
          (fun v hv => hs v (Column.stored_revertUpdate hr ▸ hv)) _ _)) fun r _ => ?_
        cases r with
        | error e => exact Reading.honest_pure _
        | ok restored =>
          dsimp only
          split <;> exact Reading.honest_pure _

theorem honest_fetch {t : Table} (h : t.Safe safe) (i row : Nat) (s : Snapshot) :
    (t.fetch source i row s).Honest source safe := by
  refine Reading.honest_bind (Reading.honest_of _) fun c hc =>
    Reading.honest_bind (Reading.honest_of _) fun _ _ => ?_
  exact Column.honest_fetch (h.column (List.mem_of_getElem? (column_eq_ok.mp hc))) _ _

end Honest

end Table

namespace Scan

variable {s : Scan} {source : Source} {safe : StoredValues → Prop}

theorem honest_readColumns (h : s.table.Safe safe) (start count : Nat) (columns : List Nat) :
    (s.readColumns source start count columns).Honest source safe := by
  induction columns with
  | nil => exact Reading.honest_pure _
  | cons i rest ih =>
    unfold readColumns
    cases hc : s.table.column i with
    | error e =>
      exact Reading.honest_bind (Reading.honest_of _) fun c hc' => by cases hc'
    | ok c =>
      refine Reading.honest_bind (Reading.honest_of _) fun c' hc' => ?_
      obtain rfl := Except.ok.inj hc'
      have hsafe := h.column (List.mem_of_getElem? (Table.column_eq_ok.mp hc))
      exact Reading.honest_bind (Column.honest_scan hsafe _ _ _) fun _ _ =>
        Reading.honest_bind ih fun _ _ => Reading.honest_pure _

theorem honest_readPart (h : s.table.Safe safe) (start count : Nat) :
    (s.readPart source start count).Honest source safe := by
  refine Reading.honest_bind (Reading.honest_of _) fun visible _ => ?_
  split
  · exact Reading.honest_pure _
  · exact Reading.honest_bind (honest_readColumns h _ _ _) fun _ _ => Reading.honest_of _

theorem honest_readAll {read : Nat → Nat → Reading (Option ScanChunk)}
    (h : ∀ start count, (read start count).Honest source safe) (parts : List (Nat × Nat)) :
    (s.readAll read parts).Honest source safe := by
  induction parts with
  | nil => exact Reading.honest_pure _
  | cons p rest ih =>
    obtain ⟨start, count⟩ := p
    unfold readAll
    split
    · exact Reading.honest_pure _
    · refine Reading.honest_bind (Reading.honest_attempt (h start count)) fun r _ => ?_
      cases r with
      | error e => exact Reading.honest_pure _
      | ok part => exact Reading.honest_bind ih fun _ _ => Reading.honest_pure _

/-- **A scan reads the stored segments of its table.** -/
theorem honest_run (h : s.table.Safe safe) (source : Source) : (s.run source).Honest source safe := by
  refine Reading.honest_bind (Reading.honest_of _) fun plan _ => ?_
  refine Reading.honest_bind (honest_readAll (fun _ _ => honest_readPart h _ _) plan) fun r _ => ?_
  cases r with
  | error e => exact Reading.honest_pure _
  | ok committed =>
    dsimp only
    cases s.localRows with
    | none => exact Reading.honest_pure _
    | some l =>
      exact Reading.honest_bind (honest_readAll (fun _ _ => Reading.honest_of _) _) fun _ _ =>
        Reading.honest_pure _

end Scan

end ColumnStore
