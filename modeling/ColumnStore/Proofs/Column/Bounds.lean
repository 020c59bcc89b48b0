/-
# Statistics of the segments of a column

What was ever written to a column is told as a list of values and rows.  The statistics of a segment
count its rows, have bounds if a value other than `NULL` was ever written to one of them, and admit
every value that is under the updates or in a chain (`Segment.Accounts`).  To add rows, to write over
them, to commit and to take writes back keeps it so (`accounts_of_written`), so what any reader gets
is admitted, and a verdict is right for every reader (`pruning_sound`).

The statistics of a segment that rows were added to and never written over are those of its own
values, as if these had been taken into account one by one (`Segment.Tallied`).  Filling and sealing
segments keeps it so (`Column.Tallied.append`).
-/

import ColumnStore.Proofs.Column.Appending
import ColumnStore.Proofs.Segment.Bounds
import Mathlib.Data.List.Induction

namespace ColumnStore

theorem Overlay.mem_of_mem_dropLastOf {stamp : Stamp} {chain : List Version} {v : Version}
    (h : v ∈ dropLastOf stamp chain) : v ∈ chain := by
  have hrest : ∀ (chain : List Version) (value : Scalar) (rest : List Version),
      removeLast? stamp chain = some (value, rest) → ∀ w ∈ rest, w ∈ chain := by
    intro chain
    induction chain with
    | nil => exact fun _ _ h => nomatch h
    | cons u more ih =>
      intro value rest h w hw
      rw [removeLast?] at h
      split at h
      · rename_i found left hmore
        obtain ⟨rfl, rfl⟩ := Prod.mk.inj (Option.some.inj h)
        rcases List.mem_cons.mp hw with rfl | hw
        · exact List.mem_cons_self
        · exact List.mem_cons_of_mem _ (ih _ _ hmore w hw)
      · split at h
        · obtain ⟨-, rfl⟩ := Prod.mk.inj (Option.some.inj h)
          exact List.mem_cons_of_mem _ hw
        · cases h
  unfold dropLastOf at h
  split at h
  · rename_i value rest hremove
    exact hrest chain value rest hremove v h
  · exact h

namespace Segment

/-! ## Statistics of one segment -/

/-- Values with the rows that they were written to. -/
abbrev Writes := List (Scalar × Nat)

/-- The statistics of a segment are right about the values that were ever written to its rows. -/
structure Accounts (s : Segment) (source : Source) (ws : Writes) : Prop where
  rows_eq : s.statistics.rows = s.count
  typed : s.statistics.Typed s.type
  under : ∀ i x, i < s.count → s.under source i = .ok x → x.fits s.type = true ∧ s.statistics.Admits x
  chain : ∀ i, ∀ v ∈ s.overlay.chain i, v.value.fits s.type = true ∧ s.statistics.Admits v.value
  least_none : s.statistics.least = none ↔
    ∀ p ∈ ws, s.start ≤ p.2 → p.2 < s.stop → p.1.isNull = true

variable {s t : Segment} {source : Source} {ws more : Writes}

/-- Writes to other rows do not concern a segment. -/
theorem Accounts.elsewhere (h : s.Accounts source ws)
    (hmore : ∀ p ∈ more, s.start ≤ p.2 → s.stop ≤ p.2) : s.Accounts source (ws ++ more) where
  rows_eq := h.rows_eq
  typed := h.typed
  under := h.under
  chain := h.chain
  least_none := by
    rw [h.least_none]
    refine ⟨fun hws p hp hlo hhi => ?_, fun hall p hp => hall p (List.mem_append_left _ hp)⟩
    rcases List.mem_append.mp hp with hp | hp
    · exact hws p hp hlo hhi
    · exact absurd hhi (Nat.not_lt_of_le (hmore p hp hlo))

/-- **What any reader gets from a segment is admitted.** -/
theorem Accounts.fetch (h : s.Accounts source ws) {i : Nat} (hi : i < s.count) {snapshot : Snapshot}
    {x : Scalar} (hx : (s.fetch source i snapshot).result = .ok x) :
    x.fits s.type = true ∧ s.statistics.Admits x := by
  rw [fetch_result, readOver] at hx
  split at hx
  · rename_i y hy
    obtain rfl := Except.ok.inj hx
    obtain ⟨v, hv, rfl⟩ := Option.map_eq_some_iff.mp hy
    exact h.chain i v (List.mem_reverse.mp (List.mem_of_find?_eq_some hv))
  · exact h.under i x hi hx

/-- **A verdict on a segment is right for every reader.** -/
theorem Accounts.check (h : s.Accounts source ws) (op : Comparison) {constant : Scalar}
    (hc : constant.fits s.type = true) {i : Nat} (hi : i < s.count) {snapshot : Snapshot} {x : Scalar}
    (hx : (s.fetch source i snapshot).result = .ok x) :
    (s.statistics.check op constant = .alwaysFalse → op.holds x constant = false) ∧
      (s.statistics.check op constant = .alwaysTrue → op.holds x constant = true) := by
  obtain ⟨hfits, hadmits⟩ := h.fetch hi hx
  have hrows : s.statistics.rows ≠ 0 := by
    rw [h.rows_eq]
    exact Nat.ne_of_gt (Nat.lt_of_le_of_lt (Nat.zero_le _) hi)
  exact Statistics.check_sound h.typed hrows op hc hfits hadmits

/-! ## Changes of one segment -/

/-- **A write takes its value into account.** -/
theorem Accounts.update (h : s.Accounts source ws) (hs : s.Sound) {p : Nat} (hp : p < s.count)
    {v : Version} (hv : v.value.fits s.type = true) :
    (s.update p v).Accounts source (ws ++ [(v.value, s.start + p)]) := by
  have htaken := Statistics.taken_update h.typed hv
  have hr : Column.Revises s (s.update p v) := ⟨rfl, rfl, rfl, rfl, rfl⟩
  refine ⟨(Statistics.rows_update _ _).trans h.rows_eq, htaken.typed, fun i x hi hx => ?_,
    fun i w hw => ?_, ?_⟩
  · rw [under_revises hr] at hx
    obtain ⟨hfits, hadmits⟩ := h.under i x hi hx
    exact ⟨hfits, htaken.admits_old x hadmits⟩
  · have hchain : (s.update p v).overlay.chain i =
        if i = p then s.overlay.chain p ++ [v] else s.overlay.chain i :=
      Overlay.chain_push hs.ascending p v i
    rw [hchain] at hw
    have hold : ∀ j, w ∈ s.overlay.chain j →
        w.value.fits s.type = true ∧ (s.statistics.update v.value).Admits w.value := fun j hj =>
      (h.chain j w hj).imp_right (htaken.admits_old w.value)
    split at hw
    · rcases List.mem_append.mp hw with hw | hw
      · exact hold p hw
      · obtain rfl := List.mem_singleton.mp hw
        exact ⟨hv, htaken.admits⟩
    · exact hold i hw
  · have hin : s.start ≤ s.start + p ∧ s.start + p < s.stop :=
      ⟨Nat.le_add_right _ _, Nat.add_lt_add_left hp _⟩
    change (s.statistics.update v.value).least = none ↔ _
    rw [htaken.least_none, h.least_none]
    constructor
    · rintro ⟨hws, hnull⟩ q hq hlo hhi
      rcases List.mem_append.mp hq with hq | hq
      · exact hws q hq hlo hhi
      · obtain rfl := List.mem_singleton.mp hq
        exact hnull
    · intro hall
      exact ⟨fun q hq => hall q (List.mem_append_left _ hq),
        hall (v.value, s.start + p) (by simp) hin.1 hin.2⟩

/-- **A segment with fewer versions of the same values** is accounted for as before. -/
theorem Accounts.of_chains (h : s.Accounts source ws) {o : Overlay}
    (hchain : ∀ i, ∀ w ∈ o.chain i, ∃ j, ∃ v ∈ s.overlay.chain j, v.value = w.value) :
    Accounts { s with overlay := o } source ws where
  rows_eq := h.rows_eq
  typed := h.typed
  under i x hi hx := h.under i x hi hx
  chain i w hw := by
    obtain ⟨j, v, hv, heq⟩ := hchain i w hw
    exact heq ▸ h.chain j v hv
  least_none := h.least_none

/-- **A commit of a write changes no value.** -/
theorem Accounts.commitUpdate (h : s.Accounts source ws) (hs : s.Sound) (p : Nat)
    (transaction time : Stamp) : (s.commitUpdate p transaction time).Accounts source ws := by
  refine h.of_chains fun i w hw => ?_
  rw [Overlay.chain_commit hs.ascending] at hw
  split at hw
  · obtain ⟨v, hv, rfl⟩ := List.mem_map.mp hw
    refine ⟨p, v, hv, ?_⟩
    unfold Overlay.restamp
    split <;> rfl
  · exact ⟨i, w, hw, rfl⟩

/-- **To take a write back leaves the statistics as they are.** -/
theorem Accounts.revertUpdate (h : s.Accounts source ws) (hs : s.Sound) (p : Nat)
    (transaction : Stamp) : (s.revertUpdate p transaction).2.Accounts source ws := by
  refine h.of_chains (o := (s.overlay.remove p transaction).2) fun i w hw => ?_
  rw [Overlay.chain_remove hs.ascending] at hw
  split at hw
  · exact ⟨p, w, Overlay.mem_of_mem_dropLastOf hw, rfl⟩
  · exact ⟨i, w, hw, rfl⟩

/-! ## Rows at the end of one segment -/

/-- **The statistics of a buffer that is filled** take all values into account. -/
theorem fill_statistics {v : ValueVector} (h : v.Sound) {given : ValueVector} (i : Nat)
    (st : Statistics) {rows : Selection} {values : List Scalar} (hl : given.Lists rows values)
    (hok : (fill given i v st rows).1 = .ok ()) :
    (fill given i v st rows).2.2 = st.addAll values ∧ ∀ x ∈ values, x.fits v.type = true := by
  induction rows generalizing v i st values with
  | nil =>
    obtain rfl : values = [] := List.map_eq_nil_iff.mp hl.symm
    exact ⟨rfl, by simp⟩
  | cons row rest ih =>
    obtain ⟨x, more, rfl, hx, hmore⟩ := List.map_eq_cons_iff.mp hl.symm
    unfold fill at hok ⊢
    rw [ValueVector.copySlot_eq hx.symm] at hok ⊢
    rcases ValueVector.set_cases h i x with ⟨v', he, -, hfits, hext, hself, -⟩ | ⟨e, he⟩
    · rw [he] at hok ⊢
      dsimp only at hok ⊢
      rw [hself] at hok ⊢
      obtain ⟨hst, hall⟩ := ih hext.sound (i + 1) (st.add x) hmore.symm hok
      refine ⟨hst, fun y hy => ?_⟩
      rcases List.mem_cons.mp hy with rfl | hy
      · exact hfits
      · exact hext.type_eq ▸ hall y hy
    · rw [he] at hok
      cases hok

/-- **Rows that are added are taken into account.** -/
theorem append_statistics {v : ValueVector} (h : s.Fills v) {given : ValueVector}
    {rows : Selection} {values : List Scalar} (hl : given.Lists rows values) {taken : Nat}
    (hok : s.append given rows = (.ok taken, t)) :
    t.statistics = s.statistics.addAll (values.take taken) ∧
      ∀ x ∈ values.take taken, x.fits s.type = true := by
  obtain ⟨hv, htype, -⟩ := h.vector
  have hlen : rows.length = values.length := by simpa using congrArg List.length hl
  have htake : given.Lists (rows.take (s.capacity - s.count)) (values.take (s.capacity - s.count)) := by
    simp only [ValueVector.Lists, List.map_take]
    rw [hl]
  have hfill := fill_statistics hv s.count s.statistics htake
  unfold append at hok
  rw [h.data_eq] at hok
  dsimp only at hok
  generalize fill given s.count v s.statistics (rows.take (s.capacity - s.count)) = x at hok hfill
  obtain ⟨_ | ⟨⟨⟩⟩, b, st⟩ := x
  · cases hok
  obtain ⟨htaken, rfl⟩ := Prod.mk.inj hok
  obtain rfl := Except.ok.inj htaken
  obtain ⟨hst, hall⟩ := hfill rfl
  have hsame : values.take (rows.take (s.capacity - s.count)).length =
      values.take (s.capacity - s.count) := by
    rw [List.length_take, hlen, List.take_eq_take_iff]
    omega
  rw [hsame]
  exact ⟨hst, htype ▸ hall⟩

/-- **A segment with more rows** is accounted for if its statistics have taken them into account. -/
theorem Accounts.extend (h : s.Accounts source ws) {values : List Scalar}
    (he : Column.Extended s t values) (hst : t.statistics = s.statistics.addAll values)
    (hfits : ∀ x ∈ values, x.fits s.type = true) (hws : ∀ p ∈ ws, p.2 < s.stop) :
    t.Accounts source (ws ++ values.zipIdx s.stop) := by
  obtain ⟨hall, hrows⟩ := Statistics.takenAll_addAll h.typed hfits
  rw [← hst] at hall hrows
  have hstop : t.stop = s.stop + values.length := by
    rw [Segment.stop, Segment.stop, he.start_eq, he.count_eq, Nat.add_assoc]
  refine ⟨by rw [hrows, h.rows_eq, he.count_eq], he.type_eq ▸ hall.typed, fun i x hi hx => ?_,
    fun i w hw => ?_, ?_⟩
  · rw [he.type_eq]
    rcases Nat.lt_or_ge i s.count with hlt | hge
    · rw [he.under_old source i hlt] at hx
      exact (h.under i x hlt hx).imp_right (hall.admits_old x)
    · have hk : i - s.count < values.length := by rw [he.count_eq] at hi; omega
      have hnew := he.under_new source (i - s.count) _ (List.getElem?_eq_getElem hk)
      rw [Nat.add_sub_cancel' hge, hx] at hnew
      obtain rfl := Except.ok.inj hnew
      have hm := List.getElem_mem hk
      exact ⟨hfits _ hm, hall.admits _ hm⟩
  · rw [he.type_eq]
    rw [he.overlay_eq] at hw
    exact (h.chain i w hw).imp_right (hall.admits_old w.value)
  · rw [hall.least_none, h.least_none, he.start_eq, hstop]
    constructor
    · rintro ⟨hold, hnew⟩ p hp hlo hhi
      rcases List.mem_append.mp hp with hp | hp
      · exact hold p hp hlo (hws p hp)
      · exact hnew p.1 (List.fst_mem_of_mem_zipIdx hp)
    intro hboth
    refine ⟨fun p hp hlo hhi => ?_, fun x hx => ?_⟩
    · exact hboth p (List.mem_append_left _ hp) hlo (by omega)
    · obtain ⟨k, hk, rfl⟩ := List.getElem_of_mem hx
      exact hboth (values[k], s.stop + k)
        (List.mem_append_right _ (List.mk_add_mem_zipIdx_iff_getElem?.mpr (List.getElem?_eq_getElem hk)))
        (Nat.le_trans (Nat.le_add_right _ _) (Nat.le_add_right _ _)) (Nat.add_lt_add_left hk _)

end Segment

namespace Column

open Segment (Writes)

/-! ## All segments of a column -/

theorem le_start_of_contiguous {start stop : Nat} {segments : List Segment}
    (h : Contiguous start segments stop) {s : Segment} (hs : s ∈ segments) : start ≤ s.start := by
  obtain ⟨front, back, rfl⟩ := List.append_of_mem hs
  obtain ⟨middle, hfront, hs', -⟩ := exists_of_contiguous_append h
  exact hs' ▸ hfront.le

/-- Segments that follow each other have no row in common. -/
theorem eq_of_contiguous {start stop row i j : Nat} {segments : List Segment} {s t : Segment}
    (h : Contiguous start segments stop) (hi : segments[i]? = some s) (hj : segments[j]? = some t)
    (hs : s.start ≤ row) (hs' : row < s.stop) (ht : t.start ≤ row) (ht' : row < t.stop) : i = j := by
  induction segments generalizing start i j with
  | nil => cases hi
  | cons u rest ih =>
    obtain ⟨-, hrest⟩ := h
    have hlater : ∀ (k : Nat) (w : Segment), rest[k]? = some w → u.stop ≤ w.start := fun k w hw =>
      le_start_of_contiguous hrest (List.mem_of_getElem? hw)
    cases i with
    | zero =>
      obtain rfl := Option.some.inj hi
      cases j with
      | zero => rfl
      | succ j => exact absurd (Nat.lt_of_lt_of_le hs' (hlater j t hj)) (Nat.not_lt_of_le ht)
    | succ i =>
      cases j with
      | zero =>
        obtain rfl := Option.some.inj hj
        exact absurd (Nat.lt_of_lt_of_le ht' (hlater i s hi)) (Nat.not_lt_of_le hs)
      | succ j => exact congrArg _ (ih hrest hi hj)

/-- The statistics of a column are right about what was ever written to it. -/
structure Accounts (c : Column) (source : Source) (ws : Writes) : Prop where
  within : ∀ p ∈ ws, p.2 < c.rows
  segment : ∀ s ∈ c.segments, s.Accounts source ws

variable {c c' : Column} {source : Source} {ws : Writes}

theorem accounts_empty (hc : c.segments = []) (source : Source) : c.Accounts source [] :=
  ⟨fun _ hp => absurd hp List.not_mem_nil, fun _ hs => absurd (hc ▸ hs) List.not_mem_nil⟩

/-- **Another segment in place of one** that takes a write to one of its rows into account. -/
theorem Accounts.withSegment (h : c.Accounts source ws) (hc : c.Sound) {row i p : Nat} {s s' : Segment}
    (hl : c.locate row = .ok (i, s, p)) {more : Writes} (hmore : ∀ q ∈ more, q.2 = row)
    (hs' : s'.Accounts source (ws ++ more)) : (c.withSegment i s').Accounts source (ws ++ more) := by
  obtain ⟨hrow, hi, -, hlo, hhi, -⟩ := of_locate hc hl
  refine ⟨fun q hq => ?_, fun t ht => ?_⟩
  · rcases List.mem_append.mp hq with hq | hq
    · exact h.within q hq
    · exact hmore q hq ▸ hrow
  · obtain ⟨j, hj⟩ := List.mem_iff_getElem?.mp ht
    change (c.segments.set i s')[j]? = some t at hj
    rw [List.getElem?_set] at hj
    split at hj
    · split at hj
      · obtain rfl := Option.some.inj hj
        exact hs'
      · cases hj
    · rename_i hne
      refine (h.segment t (List.mem_of_getElem? hj)).elsewhere fun q hq hge => ?_
      by_contra hlt
      have hq := hmore q hq
      exact hne (eq_of_contiguous hc.contiguous hi hj hlo hhi (hq ▸ hge) (hq ▸ Nat.lt_of_not_le hlt))

/-- **A write is taken into account.** -/
theorem Accounts.update (h : c.Accounts source ws) (hc : c.Sound) {row : Nat} {v : Version}
    (hok : c.update row v = .ok c') : c'.Accounts source (ws ++ [(v.value, row)]) := by
  unfold Column.update at hok
  split at hok
  · cases hok
  · rename_i hfits
    obtain ⟨⟨i, s, p⟩, hl, hok⟩ := bind_eq_ok.mp hok
    obtain rfl := Except.ok.inj hok
    obtain ⟨-, -, hm, hlo, hhi, rfl⟩ := of_locate hc hl
    obtain ⟨hs, htype⟩ := hc.segment s hm
    have hupdate := (h.segment s hm).update hs (p := row - s.start) (v := v)
      (by unfold Segment.stop at hhi; omega) (by rw [htype]; simpa using hfits)
    rw [Nat.add_sub_cancel' hlo] at hupdate
    exact h.withSegment hc hl (fun q hq => by rw [List.mem_singleton.mp hq]) hupdate

/-- **A commit of a write leaves a column accounted for.** -/
theorem Accounts.commitUpdate (h : c.Accounts source ws) (hc : c.Sound) {row : Nat}
    {transaction time : Stamp} (hok : c.commitUpdate row transaction time = .ok c') :
    c'.Accounts source ws := by
  obtain ⟨⟨i, s, p⟩, hl, hok⟩ := bind_eq_ok.mp hok
  obtain rfl := Except.ok.inj hok
  obtain ⟨-, -, hm, -⟩ := of_locate hc hl
  have hcommit := (h.segment s hm).commitUpdate (hc.segment s hm).1 p transaction time
  rw [← List.append_nil ws] at hcommit ⊢
  exact h.withSegment hc hl (fun _ hq => absurd hq List.not_mem_nil) hcommit

/-- **To take a write back leaves a column accounted for.** -/
theorem Accounts.revertUpdate (h : c.Accounts source ws) (hc : c.Sound) {row : Nat}
    {transaction : Stamp} {before : Option Scalar}
    (hok : c.revertUpdate row transaction = .ok (before, c')) : c'.Accounts source ws := by
  obtain ⟨⟨i, s, p⟩, hl, hok⟩ := bind_eq_ok.mp hok
  obtain rfl := (Prod.mk.inj (Except.ok.inj hok)).2
  obtain ⟨-, -, hm, -⟩ := of_locate hc hl
  have hrevert := (h.segment s hm).revertUpdate (hc.segment s hm).1 p transaction
  rw [← List.append_nil ws] at hrevert ⊢
  exact h.withSegment hc hl (fun _ hq => absurd hq List.not_mem_nil) hrevert

/-! ## Rows at the end -/

/-- **The segment that is filled** is accounted for. -/
theorem Accounts.openSegment (h : c.Accounts source ws) {front : List Segment}
    {s : Segment} (hok : c.openSegment = .ok (front, s)) :
    s.Accounts source ws ∧ ∀ t ∈ front, t.Accounts source ws := by
  obtain ⟨hfront, hs⟩ := mem_of_openSegment hok
  refine ⟨?_, fun t ht => h.segment t (hfront t ht)⟩
  rcases hs with hs | hnew
  · exact h.segment s hs
  · obtain ⟨-, rfl⟩ := new_ok hnew
    refine ⟨rfl, Statistics.typed_empty _, fun i x hi => absurd hi (Nat.not_lt_zero i),
      fun i v hv => absurd hv List.not_mem_nil, ?_⟩
    exact ⟨fun _ p hp hlo hhi => absurd hhi (Nat.not_lt_of_le hlo), fun _ => rfl⟩

/-- **The statistics of the segment that was filled** have taken all values into account. -/
theorem Filled.statistics {given : ValueVector} {rows : Selection} {taken : Nat}
    {front : List Segment} {s t u : Segment} (h : Filled c c' given rows taken front s t u)
    {values : List Scalar} (hl : given.Lists rows values) :
    u.statistics = s.statistics.addAll (values.take taken) ∧
      ∀ x ∈ values.take taken, x.fits s.type = true := by
  obtain ⟨v, hopens⟩ := h.opens
  obtain ⟨hst, hfits⟩ := Segment.append_statistics hopens.fills hl h.appended
  obtain ⟨v', hfills⟩ := h.fills
  rcases h.last with rfl | hsealed
  · exact ⟨hst, hfits⟩
  · obtain ⟨image, hu, -⟩ := Segment.toSealed_ok hfills hsealed
    exact ⟨by rw [hu]; exact hst, hfits⟩

/-- **Values that are added to the last segment are taken into account.** -/
theorem Accounts.filled (h : c.Accounts source ws) (hc : c.Sound) {given : ValueVector}
    {rows : Selection} {values : List Scalar} (hl : given.Lists rows values) {taken : Nat}
    {front : List Segment} {s t u : Segment} (hf : Filled c c' given rows taken front s t u) :
    c'.Accounts source (ws ++ (values.take taken).zipIdx c.rows) := by
  obtain ⟨-, hgrows⟩ := hf.grows hc hl
  obtain ⟨v, hopens⟩ := hf.opens
  obtain ⟨-, hext⟩ := hf.extended hopens hl
  obtain ⟨hst, hfits⟩ := hf.statistics hl
  obtain ⟨hs, hfront⟩ := h.openSegment hf.opened
  have hlast := hs.extend hext hst hfits fun p hp => hopens.stop_eq ▸ h.within p hp
  rw [hopens.stop_eq] at hlast
  refine ⟨fun p hp => ?_, fun w hw => ?_⟩
  · rcases List.mem_append.mp hp with hp | hp
    · exact Nat.lt_of_lt_of_le (h.within p hp) (hgrows.rows_eq ▸ Nat.le_add_right _ _)
    · rw [hgrows.rows_eq]
      exact (List.mem_zipIdx hp).2.1
  · rw [hf.eq] at hw
    rcases List.mem_append.mp hw with hw | hw
    · refine (hfront w hw).elsewhere fun p hp _ => ?_
      have hstop := stop_le_of_contiguous hopens.front_contiguous hw
      have hstart : s.start ≤ s.stop := Nat.le_add_right _ _
      exact Nat.le_trans hstop (Nat.le_trans (hopens.stop_eq ▸ hstart) (List.mem_zipIdx hp).1)
    · obtain rfl := List.mem_singleton.mp hw
      exact hlast

/-- **Rows that are added are taken into account.** -/
theorem Accounts.append (h : c.Accounts source ws) (hc : c.Sound) (hp : 0 < c.policy.capacity)
    {given : ValueVector} {rows : Selection} {values : List Scalar} (hl : given.Lists rows values)
    (hok : c.append given rows = (.ok (), c')) :
    c'.Accounts source (ws ++ values.zipIdx c.rows) := by
  refine (append_induction (P := fun d before => d.rows = c.rows + before.length ∧
    d.Accounts source (ws ++ before.zipIdx c.rows)) ?_ hc hp hl hok ⟨rfl, ?_⟩).2
  · rintro d d' front s t u rows taken before values hl hd hf ⟨hrows, haccounts⟩
    have hgrows := (hf.grows hd hl).2
    refine ⟨by rw [hgrows.rows_eq, hrows, List.length_append, Nat.add_assoc], ?_⟩
    have hnext := haccounts.filled hd hl hf
    rwa [hrows, List.append_assoc, ← List.zipIdx_append] at hnext
  · rwa [List.zipIdx_nil, List.append_nil]

/-! ## Histories of a column -/

/-- A column that was empty and has had rows added, written over, committed and taken back, in any
order, with everything that was ever written to it. -/
inductive Written : Writes → Column → Prop
  | new {type : ColumnType} {policy : SegmentPolicy} {c : Column} (hp : 0 < policy.capacity)
      (hok : Column.new type policy = .ok c) : Written [] c
  | append {ws : Writes} {c c' : Column} {given : ValueVector} {rows : Selection}
      {values : List Scalar} (h : Written ws c) (hl : given.Lists rows values)
      (hok : c.append given rows = (.ok (), c')) : Written (ws ++ values.zipIdx c.rows) c'
  | update {ws : Writes} {c c' : Column} {row : Nat} {v : Version} (h : Written ws c)
      (hok : c.update row v = .ok c') : Written (ws ++ [(v.value, row)]) c'
  | commitUpdate {ws : Writes} {c c' : Column} {row : Nat} {transaction time : Stamp}
      (h : Written ws c) (hok : c.commitUpdate row transaction time = .ok c') : Written ws c'
  | revertUpdate {ws : Writes} {c c' : Column} {row : Nat} {transaction : Stamp}
      {before : Option Scalar} (h : Written ws c)
      (hok : c.revertUpdate row transaction = .ok (before, c')) : Written ws c'

/-- **A column with a history** is sound, and what is under its updates can be read. -/
theorem Written.sound (h : Written ws c) : c.Sound ∧ 0 < c.policy.capacity ∧
    ∀ source row, row < c.rows → ∃ x, c.under source row = .ok x := by
  have hkeeps : ∀ {c c' : Column}, Keeps c c' → (c.Sound ∧ 0 < c.policy.capacity ∧
      ∀ source row, row < c.rows → ∃ x, c.under source row = .ok x) → c'.Sound ∧
        0 < c'.policy.capacity ∧ ∀ source row, row < c'.rows → ∃ x, c'.under source row = .ok x := by
    intro c c' hk ⟨_, hp, hread⟩
    refine ⟨hk.sound, hk.policy_eq ▸ hp, fun source row hrow => ?_⟩
    rw [hk.under_eq]
    exact hread source row (hk.rows_eq ▸ hrow)
  induction h with
  | new hp hok =>
    obtain ⟨rfl, hs⟩ := fresh_ok hok
    exact ⟨hs, hp, fun _ row hrow => absurd hrow (Nat.not_lt_zero row)⟩
  | @append ws c c' given rows values h hl hok ih =>
    obtain ⟨hs, hp, hread⟩ := ih
    have hgrows := append_ok hs hp hl hok
    refine ⟨hgrows.sound, hgrows.policy_eq ▸ hp, fun source row hrow => ?_⟩
    rcases Nat.lt_or_ge row c.rows with hlt | hge
    · rw [hgrows.under_old source row hlt]
      exact hread source row hlt
    · have hk : row - c.rows < values.length := by rw [hgrows.rows_eq] at hrow; omega
      have hnew := hgrows.under_new source (row - c.rows) _ (List.getElem?_eq_getElem hk)
      rw [Nat.add_sub_cancel' hge] at hnew
      exact ⟨_, hnew⟩
  | update h hok ih => exact hkeeps (keeps_of_update ih.1 hok) ih
  | commitUpdate h hok ih => exact hkeeps (keeps_of_commitUpdate ih.1 hok) ih
  | revertUpdate h hok ih => exact hkeeps (keeps_of_revertUpdate ih.1 hok) ih

/-- **The statistics of a column with a history** are right about all that was written. -/
theorem accounts_of_written (h : Written ws c) (source : Source) : c.Accounts source ws := by
  induction h with
  | new hp hok =>
    obtain ⟨rfl, -⟩ := fresh_ok hok
    exact accounts_empty rfl source
  | append h hl hok ih => exact ih.append h.sound.1 h.sound.2.1 hl hok
  | update h hok ih => exact ih.update h.sound.1 hok
  | commitUpdate h hok ih => exact ih.commitUpdate h.sound.1 hok
  | revertUpdate h hok ih => exact ih.revertUpdate h.sound.1 hok

/-- The rows of a segment are those of the column from its start on. -/
theorem under_segment (hc : c.Sound) {s : Segment} (hs : s ∈ c.segments) (source : Source) {i : Nat}
    (hi : i < s.count) : s.start + i < c.rows ∧ c.under source (s.start + i) = s.under source i := by
  obtain ⟨j, hj⟩ := List.mem_iff_getElem?.mp hs
  obtain ⟨hrow, hl⟩ := locate_of_mem hc hj hi
  exact ⟨hrow, by rw [Column.under, hl]; rfl⟩

/-- **Pruning is sound.**  Whatever has been appended to a column, written over, committed and taken
back, the statistics of each of its segments count its rows, have bounds exactly if a value other than
`NULL` was ever written to one of them, and admit what any reader gets from any of them.  So where they
say that no row passes a comparison with a constant of the type of the column, or that every row does,
that is so for every reader. -/
theorem pruning_sound (h : Written ws c) {s : Segment} (hs : s ∈ c.segments) (source : Source) :
    s.statistics.rows = s.count ∧
      (s.statistics.least = none ↔
        ∀ p ∈ ws, s.start ≤ p.2 → p.2 < s.stop → p.1.isNull = true) ∧
      (s.statistics.greatest = none ↔ s.statistics.least = none) ∧
      (∀ (i : Nat) (snapshot : Snapshot), i < s.count →
        ∃ x, (s.fetch source i snapshot).result = .ok x ∧ s.statistics.Admits x) ∧
      ∀ (op : Comparison) (constant : Scalar), constant.fits c.type = true →
        ∀ (i : Nat) (snapshot : Snapshot) (x : Scalar), i < s.count →
          (s.fetch source i snapshot).result = .ok x →
            (s.statistics.check op constant = .alwaysFalse → op.holds x constant = false) ∧
              (s.statistics.check op constant = .alwaysTrue → op.holds x constant = true) := by
  obtain ⟨hc, -, hread⟩ := h.sound
  have haccounts := (accounts_of_written h source).segment s hs
  obtain ⟨-, htype⟩ := hc.segment s hs
  refine ⟨haccounts.rows_eq, haccounts.least_none, haccounts.typed.none_iff.symm,
    fun i snapshot hi => ?_, fun op constant hfits i snapshot x hi hx =>
      haccounts.check op (htype ▸ hfits) hi hx⟩
  obtain ⟨hrow, hunder⟩ := under_segment hc hs source hi
  obtain ⟨x, hx⟩ : ∃ x, (s.fetch source i snapshot).result = .ok x := by
    rw [Segment.fetch_result, readOver]
    split
    · exact ⟨_, rfl⟩
    · exact hunder ▸ hread source _ hrow
  exact ⟨x, hx, (haccounts.fetch hi hx).2⟩

/-- An empty column of segments with room for two rows. -/
def pairs : Column := { type := .bigInt, policy := { capacity := 2, compression := .uncompressed } }

/-- Three values. -/
def threeValues : ValueVector :=
  .flat .bigInt { capacity := 3 } #[.bigInt 4, .bigInt 7, .bigInt 9]

/-- Three rows are added, one of them is written over and committed, and another write is taken
back. -/
def rewritten : Except StorageError Column := do
  let c ← (pairs.append threeValues [0, 1, 2]).1.map fun _ => (pairs.append threeValues [0, 1, 2]).2
  let c ← c.update 0 ⟨firstTransaction, .bigInt 2⟩
  let c ← c.commitUpdate 0 firstTransaction 2
  let c ← c.update 1 ⟨firstTransaction + 1, .null⟩
  let (_, c) ← c.revertUpdate 1 (firstTransaction + 1)
  pure c

/-- The statistics of such a column are right. -/
theorem pruning_sound_rewritten : ∃ (ws : Writes) (c : Column) (s : Segment), rewritten = .ok c ∧
    Written ws c ∧ c.segments[0]? = some s ∧ ∀ source : Source, s.statistics.rows = s.count ∧
      ∀ (i : Nat) (snapshot : Snapshot), i < s.count →
        ∃ x, (s.fetch source i snapshot).result = .ok x ∧ s.statistics.Admits x := by
  have hok : rewritten.toOption.any (fun c => 0 < c.segments.length) = true := by decide +kernel
  obtain ⟨c, hc, hlength⟩ := (Option.any_eq_true _ _).mp hok
  have hrewritten := eq_ok_of_toOption hc
  obtain ⟨c₁, h₁, h⟩ := bind_eq_ok.mp hrewritten
  obtain ⟨c₂, h₂, h⟩ := bind_eq_ok.mp h
  obtain ⟨c₃, h₃, h⟩ := bind_eq_ok.mp h
  obtain ⟨c₄, h₄, h⟩ := bind_eq_ok.mp h
  obtain ⟨⟨before, c₅⟩, h₅, h⟩ := bind_eq_ok.mp h
  obtain rfl := Except.ok.inj h
  obtain ⟨u, hu, rfl⟩ := map_eq_ok.mp h₁
  have hempty : Written [] pairs := .new (by decide : 0 < pairs.policy.capacity)
    (rfl : Column.new .bigInt pairs.policy = .ok pairs)
  have hlists : threeValues.Lists [0, 1, 2] [.bigInt 4, .bigInt 7, .bigInt 9] := rfl
  have hwritten := ((((hempty.append hlists (Prod.ext hu rfl)).update h₂).commitUpdate h₃).update
    h₄).revertUpdate h₅
  have hs := List.getElem?_eq_getElem (of_decide_eq_true hlength)
  refine ⟨_, _, _, hrewritten, hwritten, hs, fun source => ?_⟩
  obtain ⟨hrows, -, -, hread, -⟩ := pruning_sound hwritten (List.mem_of_getElem? hs) source
  exact ⟨hrows, hread⟩

end Column

/-! ## Statistics of what was added -/

theorem Statistics.addAll_append (st : Statistics) (xs ys : List Scalar) :
    st.addAll (xs ++ ys) = (st.addAll xs).addAll ys := List.foldl_append

namespace Segment

/-- A segment without updates whose statistics are those of its values and of nothing else. -/
structure Tallied (s : Segment) : Prop where
  overlay_eq : s.overlay = {}
  tally : ∃ values : List Scalar, values.length = s.count ∧
    (∀ source i x, values[i]? = some x → s.under source i = .ok x) ∧
    s.statistics = Statistics.addAll { type := s.type } values

variable {s t : Segment}

theorem tallied_new {type : ColumnType} {start capacity : Nat}
    (h : Segment.new type start capacity = .ok s) : s.Tallied := by
  obtain ⟨-, rfl⟩ := Column.new_ok h
  refine ⟨rfl, [], rfl, ?_, rfl⟩
  rintro source i x ⟨⟩

/-- **Values that are taken into account as they are added** are all there is to the statistics. -/
theorem Tallied.extend (h : s.Tallied) {values : List Scalar} (he : Column.Extended s t values)
    (hst : t.statistics = s.statistics.addAll values) : t.Tallied := by
  obtain ⟨hoverlay, old, hlength, hunder, hold⟩ := h
  refine ⟨he.overlay_eq.trans hoverlay, old ++ values, ?_, fun source i x hx => ?_, ?_⟩
  · rw [List.length_append, hlength, he.count_eq]
  · rcases Nat.lt_or_ge i old.length with hlt | hge
    · rw [List.getElem?_append_left hlt] at hx
      rw [he.under_old source i (hlength ▸ hlt)]
      exact hunder source i x hx
    · rw [List.getElem?_append_right hge] at hx
      have hnew := he.under_new source _ x hx
      rwa [← hlength, Nat.add_sub_cancel' hge] at hnew
  · rw [hst, hold, he.type_eq, Statistics.addAll_append]

/-- **The statistics of its own values** are right about them. -/
theorem Tallied.accounts (h : s.Tallied) {source : Source}
    (hfits : ∀ i x, i < s.count → s.under source i = .ok x → x.fits s.type = true) {ws : Writes}
    (hws : ∀ p ∈ ws, p.2 < s.start) : ∃ more : Writes,
      (∀ p ∈ more, s.start ≤ p.2 ∧ p.2 < s.stop) ∧ s.Accounts source (ws ++ more) := by
  obtain ⟨hoverlay, values, hlength, hunder, hst⟩ := h
  have hvalue : ∀ i, i < s.count → ∃ x ∈ values, s.under source i = .ok x := fun i hi => by
    have hx := List.getElem?_eq_getElem (hlength.symm ▸ hi)
    exact ⟨_, List.mem_of_getElem? hx, hunder source i _ hx⟩
  have hall : ∀ x ∈ values, x.fits s.type = true := fun x hx => by
    obtain ⟨i, hi⟩ := List.mem_iff_getElem?.mp hx
    exact hfits i x (hlength ▸ (List.getElem?_eq_some_iff.mp hi).1) (hunder source i x hi)
  obtain ⟨htaken, hrows⟩ := Statistics.takenAll_addAll (Statistics.typed_empty s.type) hall
  rw [← hst] at htaken hrows
  refine ⟨values.zipIdx s.start, fun p hp => ?_, ?_⟩
  · obtain ⟨hlow, hhigh, -⟩ := List.mem_zipIdx hp
    rw [hlength] at hhigh
    exact ⟨hlow, hhigh⟩
  refine ⟨hrows.trans ((Nat.zero_add _).trans hlength), htaken.typed, fun i x hi hx => ?_,
    fun i v hv => ?_, ?_⟩
  · obtain ⟨y, hy, hunder⟩ := hvalue i hi
    obtain rfl := Except.ok.inj (hunder.symm.trans hx)
    exact ⟨hall _ hy, htaken.admits _ hy⟩
  · rw [hoverlay] at hv
    exact absurd hv List.not_mem_nil
  · rw [htaken.least_none]
    constructor
    · rintro ⟨-, hnull⟩ p hp hlow -
      rcases List.mem_append.mp hp with hp | hp
      · exact absurd hlow (Nat.not_le_of_lt (hws p hp))
      · exact hnull p.1 (List.fst_mem_of_mem_zipIdx hp)
    · intro hnull
      refine ⟨rfl, fun x hx => ?_⟩
      obtain ⟨k, hk⟩ := List.mem_iff_getElem?.mp hx
      exact hnull (x, s.start + k)
        (List.mem_append_right _ (List.mk_add_mem_zipIdx_iff_getElem?.mpr hk))
        (Nat.le_add_right _ _) (Nat.add_lt_add_left (hlength ▸ (List.getElem?_eq_some_iff.mp hk).1) _)

end Segment

namespace Column

/-- A column of such segments. -/
def Tallied (c : Column) : Prop := ∀ s ∈ c.segments, s.Tallied

/-- **Rows that are added** are taken into account once. -/
theorem Tallied.append {c c' : Column} (ht : c.Tallied) (h : c.Sound) (hp : 0 < c.policy.capacity)
    {given : ValueVector} {rows : Selection} {values : List Scalar} (hl : given.Lists rows values)
    (hok : c.append given rows = (.ok (), c')) : c'.Tallied := by
  refine append_keeps ?_ h hp hl hok ht
  intro c c' front s t u rows taken values hl hf hc r hr
  obtain ⟨hfront, hs⟩ := mem_of_openSegment hf.opened
  rw [hf.eq] at hr
  rcases List.mem_append.mp hr with hr | hr
  · exact hc r (hfront r hr)
  obtain rfl := List.mem_singleton.mp hr
  obtain ⟨v, hopens⟩ := hf.opens
  obtain ⟨-, hext⟩ := hf.extended hopens hl
  have htallied : s.Tallied := hs.elim (hc s) Segment.tallied_new
  exact htallied.extend hext (hf.statistics hl).1

theorem accounts_of_contiguous (source : Source) {start stop : Nat} {segments : List Segment}
    (hc : Contiguous start segments stop) (h : ∀ s ∈ segments, s.Tallied ∧
      ∀ i x, i < s.count → s.under source i = .ok x → x.fits s.type = true) :
    ∃ ws : Segment.Writes, (∀ p ∈ ws, p.2 < stop) ∧ ∀ s ∈ segments, s.Accounts source ws := by
  induction segments using List.reverseRecOn generalizing stop with
  | nil => exact ⟨[], fun _ hp => absurd hp List.not_mem_nil, fun _ hs => absurd hs List.not_mem_nil⟩
  | append_singleton front s ih =>
    obtain ⟨middle, hfront, hstart, hstop⟩ := exists_of_contiguous_append hc
    obtain rfl : s.stop = stop := hstop
    obtain ⟨ws, hws, haccounts⟩ := ih hfront fun t ht => h t (List.mem_append_left _ ht)
    obtain ⟨htallied, hfits⟩ := h s (List.mem_append_right _ List.mem_cons_self)
    obtain ⟨more, hmore, hs⟩ := htallied.accounts hfits fun p hp => hstart ▸ hws p hp
    refine ⟨ws ++ more, fun p hp => ?_, fun t ht => ?_⟩
    · rcases List.mem_append.mp hp with hp | hp
      · have hle : s.start ≤ s.stop := Nat.le_add_right _ _
        exact Nat.lt_of_lt_of_le (hws p hp) (hstart ▸ hle)
      · exact (hmore p hp).2
    · rcases List.mem_append.mp ht with ht | ht
      · refine (haccounts t ht).elsewhere fun p hp _ => ?_
        exact Nat.le_trans (stop_le_of_contiguous hfront ht) (hstart ▸ (hmore p hp).1)
      · obtain rfl := List.mem_singleton.mp ht
        exact hs

/-- **The statistics of such a column** are right about its values. -/
theorem accounts_of_tallied {c : Column} (ht : c.Tallied) (h : c.Sound) {source : Source}
    (hfits : ∀ row x, row < c.rows → c.under source row = .ok x → x.fits c.type = true) :
    ∃ ws, c.Accounts source ws := by
  obtain ⟨ws, hwithin, hall⟩ := accounts_of_contiguous source h.contiguous fun s hs =>
    ⟨ht s hs, fun i x hi hx => by
      obtain ⟨hrow, hunder⟩ := under_segment h hs source hi
      exact (h.segment s hs).2 ▸ hfits _ x hrow (hunder.trans hx)⟩
  exact ⟨ws, hwithin, hall⟩

end Column

end ColumnStore
