/-
# What was committed stays

What everybody has seen of a table at a time of the past is what everybody sees of it at that time
ever after: no operation, no commit and no change of the schema changes it (`Run.row?_eq`).
-/

import ColumnStore.Proofs.Database.Telling

namespace ColumnStore

namespace Table

variable {t t' : Table} {source source' : Source} {s s' : Snapshot}

/-- **States of a table that look alike** have the same rows. -/
theorem Looks.row?_eq (h : Looks s t t') (hnever : s.sees neverDeleted = false)
    (hunder : ∀ i r, r < t.rows → t'.under source' i r = t.under source i r) (r : Nat) :
    t'.row? source' s r = t.row? source s r := by
  refine row?_congr h.definitions_eq ?_ fun st hst _ i _ => ?_
  · have hvisible (o : Option RowStamps) :
        o.any (·.isVisible s) = (o.bind s.stamps?).any (·.deleted = neverDeleted) := by
      cases o with
      | none => rfl
      | some st => exact Snapshot.isVisible_eq hnever st
    rw [hvisible, hvisible, h.stamps_eq]
  · rw [value, value, Snapshot.readOver_congr (h.versions_eq i r), hunder i r (of_stamps? hst)]

/-- Behind the rows there are none. -/
theorem row?_of_le {r : Nat} (h : t.rows ≤ r) : t.row? source s r = none :=
  row?_of_hidden (by rw [stamps?_eq_none.mpr h]; rfl)

/-- **Between two commits** nothing is seen of a row that was not seen before. -/
theorem row?_later {last time : Stamp} {active : List Transaction} {id : TableId} {base : Source}
    {safe : StoredValues → Prop} (h : TableOwned last base safe active id t) (hle : last ≤ time)
    (hids : ∀ y ∈ active, time < y.id) (hlt : time < neverDeleted) (r : Nat) :
    t.row? source (Snapshot.upTo time) r = t.row? source (Snapshot.upTo last) r := by
  have hsees {stamp : Stamp} (hs : stamp ≤ last ∨ time < stamp) :
      (Snapshot.upTo time).sees stamp = (Snapshot.upTo last).sees stamp := by
    rcases hs with hs | hs
    · rw [Snapshot.sees_upTo_of_le hs, Snapshot.sees_upTo_of_le (Nat.le_trans hs hle)]
    · rw [Snapshot.sees_upTo_of_lt hs, Snapshot.sees_upTo_of_lt (Nat.lt_of_le_of_lt hle hs)]
  refine row?_congr rfl ?_ fun st hst _ i _ => ?_
  · cases hst : t.stamps? r with
    | none => rfl
    | some st =>
      have hrow := h.rows r
      rw [hst] at hrow
      have hdeleted : st.deleted ≤ last ∨ time < st.deleted := by
        rcases hrow.deleted_cases with hd | hd | ⟨y, hy, hd⟩
        · exact Or.inl hd
        · exact Or.inr (hd ▸ hlt)
        · exact Or.inr (hd ▸ hids y hy)
      rw [Option.any_some, Option.any_some, RowStamps.isVisible, RowStamps.isVisible,
        hsees (Or.inl hrow.1), hsees hdeleted]
  · rw [value, value, readOver, readOver, seen?_congr fun v hv => ?_]
    exact hsees (((h.cells i r).stamp_cases v hv).imp_right fun hv => by
      obtain ⟨y, hy, heq⟩ := hv
      exact heq ▸ hids y hy)

end Table

namespace System

/-- A row of a table as a snapshot sees it, none if there is no such table. -/
def row? (s : System) (id : TableId) (snapshot : Snapshot) (r : Nat) : Option Row :=
  s.database.catalog.tables[id]?.bind fun t => t.row? s.database.source snapshot r

theorem row?_of_some {s : System} {id : Nat} {t : Table}
    (ht : s.database.catalog.tables[id]? = some t) (snapshot : Snapshot) (r : Nat) :
    s.row? id snapshot r = t.row? s.database.source snapshot r := by
  rw [row?, ht, Option.bind_some]

theorem row?_of_none {s : System} {id : Nat} (h : s.database.catalog.tables[id]? = none)
    (snapshot : Snapshot) (r : Nat) : s.row? id snapshot r = none := by
  rw [row?, h, Option.bind_none]

variable {s s' : System} {a : Action} {o : Outcome}

/-- **No step writes to stored segments.** -/
theorem Deed.load_eq (h : Deed s s' a o) {v : StoredValues} (hv : s.database.SafeFile v) :
    s'.database.disk.source.load v = s.database.disk.source.load v := by
  have hlog (b : Bytes) : (s.database.withLog b).disk.source.load v = s.database.disk.source.load v :=
    Disk.load_congr (Disk.bytes_writeAt s.database.disk hv _ b)
  cases h with
  | acts k x x' ha hx hm hacts hcommit hput =>
    subst hput
    change x'.database.disk.source.load v = _
    rw [hm.silent.rest_eq, (session?_eq_some.mp hx).1]
  | begun h => rw [h]; rfl
  | committed k x x' hx hs hw h hput =>
    subst hput
    obtain ⟨decoded, b, c', -, -, hdb⟩ := h.database_eq
    rw [(session?_eq_some.mp hx).1] at hdb
    change x'.database.disk.source.load v = _
    rw [hdb]
    exact hlog b
  | created name definitions id h hx =>
    obtain ⟨u, b, c', -, -, -, hdb⟩ := Database.createTable_ok h
    rw [hdb]
    exact hlog b
  | dropped name h hx =>
    obtain ⟨id, b, c', -, -, hdb⟩ := Database.dropTable_ok h
    rw [hdb]
    exact hlog b
  | refused a e ha h => rw [h]

variable {who : Option Transaction} {id : Nat} {t t' : Table}

/-- **What a step does to a table** is not seen by who sees neither the numbers of those who are active
nor the time of the next commit. -/
theorem Moves.looks (h : Moves s s' who id t t') {z : Snapshot}
    (hids : ∀ y ∈ activeOf s.transactions, z.sees y.id = false)
    (htime : who ≠ none → z.sees (s.database.lastCommit + 1) = false)
    (hnever : z.sees neverDeleted = false) : Table.Looks z t t' := by
  cases h with
  | stays hwho h hlast =>
    rw [h]
    exact ⟨rfl, rfl, rfl, Nat.le_refl _, fun _ => rfl, fun _ _ => rfl, fun _ _ _ _ => rfl⟩
  | touched x hwho hx h hlast => exact h.looks (hids x hx) hnever
  | commits x hwho hx h hlast => exact h.looks (hids x hx) (htime (by simp [hwho]))

/-- What is stored of a table is read as before. -/
theorem Deed.under_eq (h : Deed s s' a o) (hs : s.Sound) (hs' : s'.Sound)
    (ht : s.database.catalog.tables[id]? = some t) (ht' : s'.database.catalog.tables[id]? = some t')
    {z : Snapshot} (hl : Table.Looks z t t') (i : Nat) {r : Nat} (hr : r < t.rows) :
    t'.under s'.database.source i r = t.under s.database.source i r := by
  rw [hs'.database.under_eq ht', hs.database.under_eq ht, hl.under_eq _ i r hr]
  exact Table.under_congr (fun v hv => h.load_eq ((hs.database.owned id t ht).safe v hv)) i r

/-- The last commit does not go back. -/
theorem Deed.last_le (h : Deed s s' a o) : s.database.lastCommit ≤ s'.database.lastCommit := by
  cases h with
  | acts k x x' ha hx hm hacts hcommit hput =>
    subst hput
    change _ ≤ x'.database.lastCommit
    rw [hm.silent.rest_eq, (session?_eq_some.mp hx).1]
  | begun h => exact h ▸ Nat.le_refl _
  | committed k x x' hx hs hw h hput =>
    subst hput
    obtain ⟨decoded, b, c', -, -, hdb⟩ := h.database_eq
    change _ ≤ x'.database.lastCommit
    rw [hdb]
    exact Nat.le_succ _
  | created name definitions id h hx =>
    obtain ⟨u, b, c', -, -, -, hdb⟩ := Database.createTable_ok h
    rw [hdb]
    exact Nat.le_succ _
  | dropped name h hx =>
    obtain ⟨id, b, c', -, -, hdb⟩ := Database.dropTable_ok h
    rw [hdb]
    exact Nat.le_succ _
  | refused a e ha h => exact h ▸ Nat.le_refl _

/-- **A step is not seen** by who sees neither the numbers of those who are active nor the commit that
is made in it. -/
theorem Deed.row?_eq_of_unseen (h : Deed s s' a o) (hs : s.Sound) (hs' : s'.Sound) {z : Snapshot}
    (hids : ∀ y ∈ activeOf s.transactions, z.sees y.id = false)
    (htime : o = .committed (s.database.lastCommit + 1) →
      z.sees (s.database.lastCommit + 1) = false)
    (hnever : z.sees neverDeleted = false) (id r : Nat) : s'.row? id z r = s.row? id z r := by
  obtain ⟨who, hprogress, hwho⟩ := h.progress hs
  have hcommit (hne : who ≠ none) : z.sees (s.database.lastCommit + 1) = false := by
    obtain ⟨x, hx⟩ := Option.ne_none_iff_exists'.mp hne
    obtain ⟨k, -, -, ho⟩ := hwho x hx
    exact htime ho
  cases ht : s.database.catalog.tables[id]? with
  | some t =>
    obtain ⟨t', ht', hmoves⟩ := hprogress.tables id t ht
    have hl : Table.Looks z t t' := hmoves.looks hids hcommit hnever
    rw [row?_of_some ht, row?_of_some ht']
    exact hl.row?_eq hnever (fun i _ hr => h.under_eq hs hs' ht ht' hl i hr) r
  | none =>
    rw [row?_of_none ht]
    cases ht' : s'.database.catalog.tables[id]? with
    | none => exact row?_of_none ht' _ _
    | some t' =>
      rw [row?_of_some ht']
      rcases hprogress.new id t' ht' with ⟨t, hsome⟩ | ⟨-, hrows⟩
      · rw [ht] at hsome
        cases hsome
      · exact Table.row?_of_le (hrows ▸ Nat.zero_le r)

/-- A time before the numbers of all transactions. -/
theorem Sound.unseen (hs : s.Sound) {time : Stamp} (htime : time < firstTransaction) :
    (∀ y ∈ activeOf s.transactions, (Snapshot.upTo time).sees y.id = false) ∧
      (Snapshot.upTo time).sees neverDeleted = false :=
  ⟨fun y hy => Snapshot.sees_upTo_of_lt (Nat.lt_of_lt_of_le htime (hs.database.ids y hy).1),
    Snapshot.sees_upTo_of_lt (Nat.lt_trans htime (by decide))⟩

/-- **What was committed by a time** is not changed by a step. -/
theorem Deed.row?_eq (h : Deed s s' a o) (hs : s.Sound) (hs' : s'.Sound) {time : Stamp}
    (htime : time ≤ s.database.lastCommit) (id r : Nat) :
    s'.row? id (Snapshot.upTo time) r = s.row? id (Snapshot.upTo time) r := by
  obtain ⟨hids, hnever⟩ := hs.unseen (Nat.lt_of_le_of_lt htime hs.database.last_lt)
  exact h.row?_eq_of_unseen hs hs' hids
    (fun _ => Snapshot.sees_upTo_of_lt (Nat.lt_succ_of_le htime)) hnever id r

/-- **After the last commit** nothing more is seen. -/
theorem Sound.row?_later (hs : s.Sound) {time : Stamp} (hle : s.database.lastCommit ≤ time)
    (htime : time < firstTransaction) (id r : Nat) :
    s.row? id (Snapshot.upTo time) r = s.row? id (Snapshot.upTo s.database.lastCommit) r := by
  cases ht : s.database.catalog.tables[id]? with
  | none => rw [row?_of_none ht, row?_of_none ht]
  | some t =>
    rw [row?_of_some ht, row?_of_some ht]
    exact Table.row?_later (hs.database.owned id t ht) hle
      (fun y hy => Nat.lt_of_lt_of_le htime (hs.database.ids y hy).1)
      (Nat.lt_trans htime (by decide)) r

/-- **What was committed by a time** is not changed by a run. -/
theorem Run.row?_eq {start s : System} {trace : List (Action × Outcome)} (hrun : Run start trace s)
    (ho : Orderly trace) (h : start.Sound) (hg : start.Guarded) {n : Nat}
    (hn : start.Counts (trace.length + n)) {time : Stamp}
    (htime : time ≤ start.database.lastCommit) (id r : Nat) :
    s.row? id (Snapshot.upTo time) r = start.row? id (Snapshot.upTo time) r := by
  obtain ⟨-, -, -, -, heq⟩ := hrun.guarded_keeps
    (P := fun _ s => time ≤ s.database.lastCommit ∧
      s.row? id (Snapshot.upTo time) r = start.row? id (Snapshot.upTo time) r)
    ho h hg hn ⟨htime, rfl⟩
    fun _ s s' _ _ _ hs _ _ hdeed _ hs' hP => by
      obtain ⟨hle, heq⟩ := hP
      exact ⟨Nat.le_trans hle (hdeed.last_le), (hdeed.row?_eq hs hs' hle id r).trans heq⟩
  exact heq

end System
end ColumnStore
