/-
# What a trace tells

The trace of a run tells what each transaction finds: the requests of the transactions that have
committed, applied to the rows of the start one transaction after the other, and then its own
requests.  The invariant (`Told`) says so of the committed rows at every time since the start, of what
every active transaction has done, and of its own rows.  Each kind of step keeps it (`Told.step`).
-/

import ColumnStore.Proofs.Database.Conflicts
import ColumnStore.Proofs.Database.Stability

namespace ColumnStore

/-! ## Contents of a table -/

namespace Contents

/-- The rows of a table behind which those of a transaction are put. -/
theorem row?_close (c : Contents) (r : Nat) :
    c.close.row? r = if r < c.rows.length then c.row? r
      else ((c.own.filter (·.isSome))[r - c.rows.length]?).join := by
  rw [row?, close]
  split
  · rename_i hr
    rw [List.getElem?_append_left hr, row?]
  · rename_i hr
    rw [List.getElem?_append_right (Nat.not_lt.mp hr)]

end Contents

/-- The rows that a transaction has not deleted are those that it commits. -/
theorem Transaction.filter_ownRows (x : Transaction) (table : TableId) :
    (x.ownRows table).filter (·.isSome) = (x.rowsOf table).map some := by
  have hfilter {α β : Type} (f : α → Option β) (xs : List α) :
      (xs.map f).filter (·.isSome) = (xs.filterMap f).map some := by
    induction xs with
    | nil => rfl
    | cons y ys ih =>
      rw [List.map_cons, List.filter_cons, List.filterMap_cons, ih]
      cases f y <;> rfl
  rw [ownRows, rowsOf]
  cases x.locals.get? table with
  | none => rfl
  | some l =>
    change l.contents.filter (·.isSome) = l.liveRows.map some
    rw [LocalRows.contents, hfilter, LocalRows.liveRows, LocalRows.live, List.filterMap_filter]
    refine congrArg (List.map some) (List.filterMap_congr fun i _ => ?_)
    cases l.isDeleted i <;> rfl

/-- A row whose deletion was committed by a time is not seen then. -/
theorem Table.row?_of_gone {t : Table} {source : Source} {r : Nat}
    {start time : Stamp} (h : t.GoneBy r start) (hle : start ≤ time) :
    t.row? source (Snapshot.upTo time) r = none := by
  obtain ⟨st, hst, hd⟩ := h
  refine Table.row?_of_hidden ?_
  rw [hst, Option.any_some, RowStamps.isVisible,
    Snapshot.sees_upTo_of_le (Nat.le_trans hd hle)]
  simp

/-- An action with chunks that are whole. -/
def Action.Whole : Action → Prop
  | .insert _ _ chunk => chunk.Whole
  | _ => True

theorem whole_of_request {a : Action} {o : Outcome} (h : a.Whole) {id : TableId} {c : Chunk}
    (hq : a.request? o = some (id, .insert c)) : c.Whole := by
  unfold Action.request? at hq
  split at hq <;> cases hq
  exact h

namespace System

/-! ## Traces -/

section Trace

variable {base : Contents} {table : TableId} {trace : List (Action × Outcome)} {a : Action}
  {o : Outcome} {time : Stamp} {k : Nat}

theorem requestsOf_snoc (k : Nat) (table : TableId) (trace : List (Action × Outcome)) (a : Action)
    (o : Outcome) : requestsOf k table (trace ++ [(a, o)]) =
      requestsOf k table trace ++
        if a.worker? = some k then Request.about table (a.request? o) else [] := by
  rw [requestsOf, List.flatMap_append, List.flatMap_singleton]
  rfl

theorem requestsOf_snoc_of_ne (h : a.worker? ≠ some k) (o : Outcome) :
    requestsOf k table (trace ++ [(a, o)]) = requestsOf k table trace := by
  rw [requestsOf_snoc, if_neg h, List.append_nil]

theorem requestsOf_snoc_of_none (h : a.request? o = none) :
    requestsOf k table (trace ++ [(a, o)]) = requestsOf k table trace := by
  rw [requestsOf_snoc, h, Request.about, ite_self, List.append_nil]

theorem commits_snoc (trace : List (Action × Outcome)) (p : Action × Outcome) :
    commits (trace ++ [p]) = commits trace ++ (commit? p).toList := by
  rw [commits, List.filterMap_append]
  cases h : commit? p with
  | none => rw [List.filterMap_cons_none h]; rfl
  | some c => rw [List.filterMap_cons_some h]; rfl

/-- What is committed by a time is settled once nobody who has committed asks for anything more. -/
theorem contentsAt_congr {trace' : List (Action × Outcome)}
    (hcommits : (commits trace').filter (·.2 ≤ time) = (commits trace).filter (·.2 ≤ time))
    (h : ∀ p ∈ commits trace, requestsOf p.1 table trace' = requestsOf p.1 table trace) :
    contentsAt base table trace' time = contentsAt base table trace time := by
  rw [contentsAt, contentsAt, hcommits]
  exact List.foldl_ext _ _ _ fun c p hp => by rw [h p (List.mem_of_mem_filter hp)]

/-- The contents after one more commit. -/
theorem contentsAt_commit {τ : Stamp} (hτ : τ ≤ time)
    (h : ∀ p ∈ commits trace, requestsOf p.1 table (trace ++ [(.commit k, .committed τ)]) =
      requestsOf p.1 table trace) :
    contentsAt base table (trace ++ [(.commit k, .committed τ)]) time =
      ((contentsAt base table trace time).after (requestsOf k table trace)).close := by
  rw [contentsAt, commits_snoc, List.filter_append, List.foldl_append]
  have hlast : ((commit? (.commit k, .committed τ)).toList).filter (·.2 ≤ time) = [(k, τ)] := by
    rw [commit?, Option.toList_some, List.filter_cons, if_pos (by simpa using hτ), List.filter_nil]
  rw [hlast, List.foldl_cons, List.foldl_nil, requestsOf_snoc_of_none rfl, contentsAt]
  refine congrArg (fun c : Contents => (c.after (requestsOf k table trace)).close) ?_
  exact List.foldl_ext _ _ _ fun c p hp => by rw [h p (List.mem_of_mem_filter hp)]

/-- No rows are a transaction's own when all have committed. -/
theorem own_contentsAt (h : base.own = []) : (contentsAt base table trace time).own = [] := by
  rw [contentsAt]
  generalize (commits trace).filter (·.2 ≤ time) = ps
  induction ps using List.reverseRecOn with
  | nil => exact h
  | append_singleton ps p _ => rw [List.foldl_append]; rfl

end Trace

/-! ## The invariant -/

/-- What a trace tells of an active transaction. -/
structure Heard (start : System) (trace : List (Action × Outcome)) (s : System) (k : Nat)
    (x : Transaction) : Prop where
  start_le : start.database.lastCommit ≤ x.start
  tidy : x.Tidy
  own : ∀ id, x.ownRows id = (({} : Contents).after (requestsOf k id trace)).own
  tells : ∀ (id : Nat) (t : Table), s.database.catalog.tables[id]? = some t →
    x.Tells t (requestsOf k id trace)

/-- What a trace tells of the system that it leads to. -/
structure Told (start : System) (trace : List (Action × Outcome)) (s : System) : Prop where
  grown : start.database.lastCommit ≤ s.database.lastCommit
  columns : ∀ (id : Nat) (t : Table), s.database.catalog.tables[id]? = some t → t.definitions ≠ []
  /-- Who has not begun has asked for nothing, and nobody for anything in a table that is not there. -/
  unasked : ∀ (k id : Nat), s.transactions[k]? = none ∨ s.database.catalog.tables[id]? = none →
    requestsOf k id trace = []
  /-- A table that is not there was not there at the start. -/
  fresh : ∀ id, s.database.catalog.tables[id]? = none → start.contents id = {}
  past : ∀ p ∈ commits trace, p.2 ≤ s.database.lastCommit ∧
    ∃ x, s.transactions[p.1]? = some x ∧ x.state ≠ .active
  ordered : (commits trace).Pairwise (·.2 ≤ ·.2)
  active : ∀ (k : Nat) (x : Transaction), s.transactions[k]? = some x → x.state = .active →
    Heard start trace s k x
  rows : ∀ id time r, start.database.lastCommit ≤ time → time ≤ s.database.lastCommit →
    (contentsAt (start.contents id) id trace time).row? r = s.row? id (Snapshot.upTo time) r
  length : ∀ (id : Nat) (t : Table), s.database.catalog.tables[id]? = some t →
    (contentsAt (start.contents id) id trace s.database.lastCommit).rows.length = t.rows

/-- No rows of the start are a transaction's own. -/
theorem own_contents (s : System) (id : TableId) : (s.contents id).own = [] := by
  rw [contents]
  split <;> rfl

section Step

variable {start s s' : System} {trace : List (Action × Outcome)} {a : Action} {o : Outcome}

/-- **What an active transaction finds** at a time since it began is what the trace tells. -/
theorem Told.row?_after (h : Told start trace s) (hs : s.Sound) {k : Nat} {x : Transaction}
    (hx : s.transactions[k]? = some x) (hactive : x.state = .active) {time : Stamp}
    (hstart : x.start ≤ time) (htime : time ≤ s.database.lastCommit) (id r : Nat) :
    ((contentsAt (start.contents id) id trace time).after (requestsOf k id trace)).row? r =
      s.row? id ⟨time, x.id⟩ r := by
  have hheard := h.active k x hx hactive
  rw [Contents.row?_after, h.rows id time r (Nat.le_trans hheard.start_le hstart) htime]
  cases ht : s.database.catalog.tables[id]? with
  | none => rw [row?_of_none ht, row?_of_none ht, Request.onRow_none]
  | some t =>
    have hmem : x ∈ activeOf s.transactions := mem_activeOf.mpr ⟨List.mem_of_getElem? hx, hactive⟩
    have hids := (numbered hs.database).ids
    rw [row?_of_some ht, row?_of_some ht,
      Table.row?_own (hs.database.legible ht) (hs.database.owned id t ht) (fun y hy => (hids y hy).1)
        (hids x hmem).1 htime]
    exact hheard.tells id t ht r _ fun hgone => Table.row?_of_gone hgone hstart

/-! ## Steps -/

/-- Who has ended asks for nothing more. -/
theorem Deed.request?_of_ended (h : Deed s s' a o) {k : Nat} {x : Transaction}
    (ha : a.worker? = some k) (hx : s.transactions[k]? = some x) (hended : x.state ≠ .active) :
    a.request? o = none := by
  cases h with
  | acts j y y' ha' hy hm hacts hcommit hput =>
    obtain rfl := Option.some.inj (ha.symm.trans ha')
    obtain rfl := Option.some.inj (hx.symm.trans (session?_eq_some.mp hy).2)
    cases hq : a.request? o with
    | none => rfl
    | some q =>
      rw [hq] at hacts
      cases hacts with
      | nothing hw => exact absurd hw.active hended
      | inserts hw => exact absurd hw.active hended
      | deletes hw => exact absurd hw.active hended
      | overwrites hw => exact absurd hw.active hended
  | begun h => cases ha
  | committed j y y' hy hsy hw h hput => rfl
  | created name definitions id h hx => cases ha
  | dropped name h hx => cases ha
  | refused b e hb h => exact absurd (hb.symm.trans ha) (by simp)

/-- A transaction that does nothing stays as it is. -/
theorem Deed.transaction_eq (h : Deed s s' a o) {k : Nat} {x : Transaction}
    (hx : s.transactions[k]? = some x) (hk : a.worker? ≠ some k) :
    s'.transactions[k]? = some x := by
  cases h with
  | acts j y y' ha hy hm hacts hcommit hput =>
    rw [hput, transactions_put hy, if_neg fun heq : j = k => hk (heq ▸ ha)]
    exact hx
  | begun h =>
    rw [h]
    exact (List.getElem?_append_left (List.getElem?_eq_some_iff.mp hx).1).trans hx
  | committed j y y' hy hsy hw h hput =>
    rw [hput, transactions_put hy, if_neg fun heq : j = k => hk (heq ▸ rfl)]
    exact hx
  | created name definitions id h heq => exact heq ▸ hx
  | dropped name h heq => exact heq ▸ hx
  | refused b e hb h => exact h ▸ hx

/-- A request is one of a transaction that there is, for a table that there is. -/
theorem request_of_step (h : s.step a = some (o, s')) {k : Nat} (ha : a.worker? = some k) {id : Nat}
    (hid : Request.about id (a.request? o) ≠ []) :
    k < s.transactions.length ∧ id < s.database.catalog.tables.size := by
  have hwork {table : TableId} {α : Type} {f : α → Outcome}
      {act : Session → Attempt TransactionError Session α} (h : s.workOn k table f act = some (o, s'))
      (hq : ∀ q, a.request? o = some q → q.1 = table) :
      k < s.transactions.length ∧ id < s.database.catalog.tables.size := by
    obtain ⟨x, t, hx, ht, -, -⟩ := workOn_eq_some h
    obtain ⟨hdb, htr⟩ := session?_eq_some.mp hx
    refine ⟨(List.getElem?_eq_some_iff.mp htr).1, ?_⟩
    cases hr : a.request? o with
    | none =>
      rw [hr] at hid
      exact absurd rfl hid
    | some q =>
      rw [hr, Request.about] at hid
      obtain ⟨heq, -⟩ := ite_ne_right_iff.mp hid
      rw [← heq, hq q hr, ← hdb]
      exact Catalog.lt_of_some ht
  cases a with
  | insert j table chunk =>
    obtain rfl := Option.some.inj ha
    exact hwork h fun q hq => by cases o <;> cases hq; rfl
  | delete j table rows =>
    obtain rfl := Option.some.inj ha
    exact hwork h fun q hq => by cases o <;> cases hq; rfl
  | update j table column rows values =>
    obtain rfl := Option.some.inj ha
    exact hwork h fun q hq => by cases o <;> cases hq; rfl
  | _ => exact absurd rfl hid

/-- **Others leave a transaction alone,** whatever they do. -/
theorem Deed.leaves (h : Deed s s' a o) (hs : s.Sound) (hr : s.Room) {k : Nat} {x : Transaction}
    (hx : s.transactions[k]? = some x) (hactive : x.state = .active) (hk : a.worker? ≠ some k)
    {id : Nat} {t t' : Table} (ht : s.database.catalog.tables[id]? = some t)
    (ht' : s'.database.catalog.tables[id]? = some t') : Table.Leaves x t t' := by
  have hmem : x ∈ activeOf s.transactions := mem_activeOf.mpr ⟨List.mem_of_getElem? hx, hactive⟩
  obtain ⟨hge, hlt, hstart⟩ := hs.database.ids x hmem
  have hnever : x.id < neverDeleted := Nat.lt_of_lt_of_le hlt hs.database.next_le
  have hlast : s.database.lastCommit < neverDeleted :=
    Nat.lt_trans hs.database.last_lt (by decide)
  -- Whoever else is at work has another number, and one that is past the start.
  have hother : ∀ {j : Nat} {y : Session}, s.session? j = some y → j ≠ k →
      y.transaction.state = .active → y.transaction.id ≠ x.id ∧ x.start < y.transaction.id := by
    intro j y hy hj hya
    have hsy := (hs.session hy).active hya
    refine ⟨fun heq => hsy.others_ne x (mem_activeOf.mpr ⟨?_, hactive⟩) heq.symm, ?_⟩
    · exact List.mem_eraseIdx_iff_getElem?.mpr ⟨k, Ne.symm hj, hx⟩
    · exact Nat.lt_of_le_of_lt hstart (Nat.lt_of_lt_of_le hs.database.last_lt (hs.id hy))
  have hsame (heq : s'.database.catalog = s.database.catalog) : Table.Leaves x t t' := by
    rw [heq] at ht'
    obtain rfl := Option.some.inj (ht.symm.trans ht')
    exact Table.Leaves.refl x t
  cases h with
  | acts j y y' ha hy hm hacts hcommit hput =>
    have hj : j ≠ k := fun heq => hk (heq ▸ ha)
    have hdb := (session?_eq_some.mp hy).1
    subst hput
    by_cases hya : y.transaction.state = .active
    · have htouch := hacts.touches
      rw [hdb] at htouch
      obtain ⟨t'', ht'', h⟩ := htouch.tables id t ht
      obtain rfl := Option.some.inj (ht'.symm.trans ht'')
      obtain ⟨hne, hpast⟩ := hother hy hj hya
      exact h.leaves hne hnever hpast (Nat.lt_of_le_of_lt hstart hlast)
    · exact hsame ((hacts.catalog_of_ended hya).trans (by rw [hdb]))
  | begun h => exact hsame (by rw [h]; rfl)
  | committed j y y' hy hsy hw h hput =>
    have hj : j ≠ k := fun heq => hk (heq ▸ rfl)
    subst hput
    obtain ⟨hne, hpast⟩ := hother hy hj hw.active
    obtain ⟨decoded, b, c', -, hc, hdb'⟩ := h.database_eq
    rw [(session?_eq_some.mp hy).1] at hc
    have ht'' : y'.database.catalog.tables[id]? = some t' := ht'
    rw [hdb'] at ht''
    obtain ⟨u, hu, hcommits⟩ := hc.tables id t ht
    obtain rfl := Option.some.inj (ht''.symm.trans hu)
    exact hcommits.leaves hne (Nat.lt_of_lt_of_le hr.commits hge) hnever hpast
  | created name definitions j h heq =>
    obtain ⟨hkept, -, -⟩ := created_tables hs h
    obtain rfl := Option.some.inj (ht'.symm.trans (hkept id t ht))
    exact Table.Leaves.refl x t'
  | dropped name h heq =>
    obtain ⟨htables, -, -⟩ := dropped_tables hs h
    obtain ⟨u, hu, hdropped⟩ := htables id t ht
    obtain rfl := Option.some.inj (ht'.symm.trans hu)
    rw [hdropped]
    exact ⟨fun _ => rfl, fun _ _ => rfl, fun _ => fun hgone => hgone⟩
  | refused b e hb h => exact hsame (by rw [h])

/-- **Who has changed nothing** has left no trace in a table. -/
theorem onRow_of_unchanged (hs : s.Sound) {k : Nat} {x : Transaction}
    (hx : s.transactions[k]? = some x) (hactive : x.state = .active) (hundo : x.undo = []) {id : Nat}
    {t : Table} (ht : s.database.catalog.tables[id]? = some t) (r : Nat) (v : Option Row) :
    x.onRow t r v = v := by
  have hsx : s.database.Sound (x :: activeOf (s.others k)) :=
    (hs.session (x := ⟨s.database, x⟩) (session?_eq_some.mpr ⟨rfl, hx⟩)).active hactive
  have hown := hsx.owned id t ht
  obtain ⟨hlast, hlt, -⟩ := (numbered hsx).ids x List.mem_cons_self
  refine Transaction.onRow_of_untouched (fun st hst => ?_) (fun i => ?_) v
  · have hrow := hown.rows r
    rw [hst] at hrow
    exact hrow.deleted_ne hsx.others_ne hlast hlt (by simp [Transaction.deletedRows, hundo])
  · exact (hown.cells i r).stamp_ne hsx.others_ne hlast (by simp [Transaction.images, hundo])

/-- **A transaction that does nothing** is heard of as before. -/
theorem Told.heard (h : Told start trace s) (hdeed : Deed s s' a o) (hs : s.Sound) (hr : s.Room)
    {k : Nat} {x : Transaction} (hx : s.transactions[k]? = some x) (hactive : x.state = .active)
    (hk : a.worker? ≠ some k) : Heard start (trace ++ [(a, o)]) s' k x := by
  have hheard := h.active k x hx hactive
  refine ⟨hheard.start_le, hheard.tidy, fun id => ?_, fun id t' ht' => ?_⟩
  · rw [requestsOf_snoc_of_ne hk]
    exact hheard.own id
  · rw [requestsOf_snoc_of_ne hk]
    cases ht : s.database.catalog.tables[id]? with
    | some t => exact (hdeed.leaves hs hr hx hactive hk ht ht').tells (hheard.tells id t ht)
    | none =>
      obtain ⟨who, hprogress, -⟩ := hdeed.progress hs
      rcases hprogress.new id t' ht' with ⟨t, hsome⟩ | ⟨hsound, hrows⟩
      · rw [ht] at hsome
        cases hsome
      · -- A table without rows holds nothing that anybody has done.
        intro r v _
        rw [h.unasked k id (Or.inr ht), Request.onRow_nil]
        refine (Transaction.onRow_of_untouched (fun st hst => ?_) (fun i v hv => ?_) v).symm
        · rw [Table.stamps?_eq_none.mpr (hrows ▸ Nat.zero_le r)] at hst
          cases hst
        · rw [Table.chain_of_le hsound (hrows ▸ Nat.zero_le r)] at hv
          cases hv

/-- Nobody who has committed asks for anything more. -/
theorem Told.requestsOf_eq (h : Told start trace s) (hdeed : Deed s s' a o) {p : Nat × Stamp}
    (hp : p ∈ commits trace) (id : TableId) :
    requestsOf p.1 id (trace ++ [(a, o)]) = requestsOf p.1 id trace := by
  obtain ⟨-, x, hx, hended⟩ := h.past p hp
  by_cases ha : a.worker? = some p.1
  · exact requestsOf_snoc_of_none (hdeed.request?_of_ended ha hx hended)
  · exact requestsOf_snoc_of_ne ha o

/-- A step changes nothing of what was committed before. -/
theorem Told.contentsAt_eq (h : Told start trace s) (hdeed : Deed s s' a o) {time : Stamp}
    (htime : ∀ k τ, commit? (a, o) = some (k, τ) → time < τ) (base : Contents) (id : TableId) :
    contentsAt base id (trace ++ [(a, o)]) time = contentsAt base id trace time := by
  refine contentsAt_congr ?_ fun p hp => h.requestsOf_eq hdeed hp id
  have hlate : ((commit? (a, o)).toList).filter (·.2 ≤ time) = [] := by
    refine List.filter_eq_nil_iff.mpr fun p hp => ?_
    simpa using htime p.1 p.2 (Option.mem_toList.mp hp)
  rw [commits_snoc, List.filter_append, hlate, List.append_nil]

/-- After the last commit there is nothing to add. -/
theorem Told.contentsAt_last (h : Told start trace s) {time : Stamp}
    (htime : s.database.lastCommit ≤ time) (base : Contents) (id : TableId) :
    contentsAt base id trace time = contentsAt base id trace s.database.lastCommit := by
  have hall {time : Stamp} (htime : s.database.lastCommit ≤ time) :
      (commits trace).filter (·.2 ≤ time) = commits trace :=
    List.filter_eq_self.mpr fun p hp => by
      simpa using Nat.le_trans (h.past p hp).1 htime
  rw [contentsAt, contentsAt, hall htime, hall (Nat.le_refl _)]

/-- **What an active transaction would commit** is what it sees, and its own rows behind it. -/
theorem Told.row?_close (h : Told start trace s) (hs : s.Sound) {k : Nat} {x : Transaction}
    (hx : s.transactions[k]? = some x) (hactive : x.state = .active) (id : Nat) {c : Contents}
    (hc : c = contentsAt (start.contents id) id trace s.database.lastCommit) :
    (c.after (requestsOf k id trace)).close.rows.length =
        c.rows.length + (x.rowsOf id).length ∧
      ∀ r, (c.after (requestsOf k id trace)).close.row? r =
        if r < c.rows.length then s.row? id ⟨s.database.lastCommit, x.id⟩ r
        else (x.rowsOf id)[r - c.rows.length]? := by
  have hmem : x ∈ activeOf s.transactions := mem_activeOf.mpr ⟨List.mem_of_getElem? hx, hactive⟩
  have hown : (c.after (requestsOf k id trace)).own.filter (·.isSome) = (x.rowsOf id).map some := by
    have hnone : c.own = ({} : Contents).own := hc ▸ own_contentsAt (own_contents start id)
    rw [Contents.own_after hnone, ← (h.active k x hx hactive).own id, x.filter_ownRows]
  refine ⟨?_, fun r => ?_⟩
  · rw [Contents.close, hown, List.length_append, Contents.length_after, List.length_map]
  · rw [Contents.row?_close, Contents.length_after, hown, List.getElem?_map]
    split
    · rw [hc]
      exact h.row?_after hs hx hactive (hs.database.ids x hmem).2.2 (Nat.le_refl _) id r
    · cases (x.rowsOf id)[r - c.rows.length]? <;> rfl

/-- **A step without a commit** leaves the contents of all tables as they are. -/
theorem Told.late_of_quiet (h : Told start trace s) (hdeed : Deed s s' a o) (hs : s.Sound)
    (hs' : s'.Sound) (hcommit : commit? (a, o) = none)
    (hnot : o ≠ .committed (s.database.lastCommit + 1)) (id : Nat) :
    (∀ time r, s.database.lastCommit ≤ time → time ≤ s'.database.lastCommit →
        (contentsAt (start.contents id) id (trace ++ [(a, o)]) time).row? r =
          s'.row? id (Snapshot.upTo time) r) ∧
      contentsAt (start.contents id) id (trace ++ [(a, o)]) s'.database.lastCommit =
        contentsAt (start.contents id) id trace s.database.lastCommit := by
  have hsame {time : Stamp} (hle : s.database.lastCommit ≤ time) :
      contentsAt (start.contents id) id (trace ++ [(a, o)]) time =
        contentsAt (start.contents id) id trace s.database.lastCommit :=
    (h.contentsAt_eq hdeed (by simp [hcommit]) _ _).trans (h.contentsAt_last hle _ _)
  refine ⟨fun time r hle hle' => ?_, hsame hdeed.last_le⟩
  have hlt := Nat.lt_of_le_of_lt hle' hs'.database.last_lt
  obtain ⟨hids, hnever⟩ := hs.unseen hlt
  rw [hsame hle, h.rows id _ r h.grown (Nat.le_refl _), ← hs.row?_later hle hlt id r]
  exact (hdeed.row?_eq_of_unseen hs hs' hids (fun ho => absurd ho hnot) hnever id r).symm

/-- The rows that a transaction commits fit the columns of their table. -/
theorem length_of_rowsOf (hs : s.Sound) {k : Nat} {x : Transaction}
    (hx : s.transactions[k]? = some x) (hactive : x.state = .active) {id : Nat} {t : Table}
    (ht : s.database.catalog.tables[id]? = some t) :
    (∀ row ∈ x.rowsOf id, row.length = t.definitions.length) ∧
      (x.undo = [] → x.rowsOf id = []) := by
  have hsx : s.database.Sound (x :: activeOf (s.others k)) :=
    (hs.session (x := ⟨s.database, x⟩) (session?_eq_some.mpr ⟨rfl, hx⟩)).active hactive
  have hlocals := Session.locals_ok (s := ⟨s.database, x⟩) hsx ht
  rw [Transaction.rowsOf]
  rw [Session.locals?] at hlocals
  cases hl : x.locals.get? id with
  | none => simp
  | some l =>
    rw [hl] at hlocals
    obtain ⟨hsound, hcount⟩ := hlocals
    refine ⟨fun row hrow => ?_, fun hundo => ?_⟩
    · rw [((LocalRows.holdRows_live hsound).2.1 row hrow).length_eq, Table.types, List.length_map]
    · have hzero : l.count = 0 := by
        rw [hcount]
        simp [hundo]
      have hlive : l.live = [] := by rw [LocalRows.live, hzero]; rfl
      exact (LocalRows.holdRows_live hsound).2.2.mpr hlive

/-- Nobody has rows for a table that is not there. -/
theorem Told.rowsOf_eq_nil (h : Told start trace s) {k : Nat} {x : Transaction}
    (hx : s.transactions[k]? = some x) (hactive : x.state = .active) {id : Nat}
    (ht : s.database.catalog.tables[id]? = none) : x.rowsOf id = [] := by
  have hown := (h.active k x hx hactive).own id
  rw [h.unasked k id (Or.inr ht)] at hown
  have hfilter := x.filter_ownRows id
  rw [hown] at hfilter
  exact List.map_eq_nil_iff.mp hfilter.symm

/-- **A commit of no changes** leaves the contents of all tables as they are. -/
theorem Told.late_of_closed (h : Told start trace s) {k : Nat} {x : Transaction} {τ : Stamp}
    (hdeed : Deed s s' (.commit k) (.committed τ)) (hs : s.Sound) (hs' : s'.Sound)
    (hx : s.transactions[k]? = some x) (hactive : x.state = .active) (hundo : x.undo = [])
    (hτ : τ = s.database.lastCommit) (id : Nat) :
    (∀ r, (contentsAt (start.contents id) id (trace ++ [(.commit k, .committed τ)]) τ).row? r =
          s'.row? id (Snapshot.upTo τ) r) ∧
      (contentsAt (start.contents id) id (trace ++ [(.commit k, .committed τ)]) τ).rows.length =
        (contentsAt (start.contents id) id trace s.database.lastCommit).rows.length := by
  have hmem : x ∈ activeOf s.transactions := mem_activeOf.mpr ⟨List.mem_of_getElem? hx, hactive⟩
  obtain ⟨hlength, hrow⟩ := h.row?_close hs hx hactive id rfl
  rw [contentsAt_commit (Nat.le_refl τ) fun p hp => h.requestsOf_eq hdeed hp id, hτ, hlength]
  have hnil : x.rowsOf id = [] := by
    cases ht : s.database.catalog.tables[id]? with
    | some t => exact (length_of_rowsOf hs hx hactive ht).2 hundo
    | none => exact h.rowsOf_eq_nil hx hactive ht
  refine ⟨fun r => ?_, by rw [hnil]; rfl⟩
  rw [hrow, hdeed.row?_eq hs hs' (Nat.le_refl _)]
  split
  · cases ht : s.database.catalog.tables[id]? with
    | none => rw [row?_of_none ht, row?_of_none ht]
    | some t =>
      rw [row?_of_some ht, row?_of_some ht, Table.row?_own (hs.database.legible ht)
        (hs.database.owned id t ht) (fun y hy => ((numbered hs.database).ids y hy).1)
        ((numbered hs.database).ids x hmem).1 (Nat.le_refl _)]
      exact onRow_of_unchanged hs hx hactive hundo ht r _
  · rename_i hr
    rw [hnil, ← h.rows id _ r h.grown (Nat.le_refl _), Contents.row?,
      List.getElem?_eq_none (Nat.not_lt.mp hr)]
    rfl

/-- **A commit of changes** makes the contents those that the transaction leaves. -/
theorem Told.late_of_commits (h : Told start trace s) {k : Nat} {x : Transaction}
    (hdeed : Deed s s' (.commit k) (.committed (s.database.lastCommit + 1))) (hs : s.Sound)
    (hs' : s'.Sound) (hr : s.Room) (hx : s.transactions[k]? = some x) (hactive : x.state = .active)
    (hcommits : Catalog.Each (Table.Commits x (s.database.lastCommit + 1)) s.database.catalog
      s'.database.catalog) (id : Nat) :
    (∀ r, (contentsAt (start.contents id) id
          (trace ++ [(.commit k, .committed (s.database.lastCommit + 1))])
          (s.database.lastCommit + 1)).row? r =
        s'.row? id (Snapshot.upTo (s.database.lastCommit + 1)) r) ∧
      ∀ t', s'.database.catalog.tables[id]? = some t' → (contentsAt (start.contents id) id
          (trace ++ [(.commit k, .committed (s.database.lastCommit + 1))])
          (s.database.lastCommit + 1)).rows.length = t'.rows := by
  have hlt : s.database.lastCommit + 1 < neverDeleted := Nat.lt_trans hr.commits (by decide)
  obtain ⟨hlength, hrow⟩ := h.row?_close hs hx hactive id rfl
  rw [contentsAt_commit (Nat.le_refl _) fun p hp => h.requestsOf_eq hdeed hp id,
    h.contentsAt_last (Nat.le_succ _), hlength]
  simp only [hrow]
  cases ht : s.database.catalog.tables[id]? with
  | none =>
    have ht' : s'.database.catalog.tables[id]? = none := by
      rw [Array.getElem?_eq_none_iff, hcommits.size_eq]
      exact Array.getElem?_eq_none_iff.mp ht
    rw [h.rowsOf_eq_nil hx hactive ht]
    refine ⟨fun r => ?_, fun t' hsome => ?_⟩
    · rw [row?_of_none ht, row?_of_none ht']
      exact ite_self _
    · rw [ht'] at hsome
      cases hsome
  | some t =>
    obtain ⟨t', ht', hc⟩ := hcommits.tables id t ht
    rw [h.length id t ht]
    refine ⟨fun r => ?_, fun u hu => ?_⟩
    · rw [row?_of_some ht, row?_of_some ht']
      split
      · rename_i hlt'
        refine (hc.row?_old (hs.database.owned id t ht) (Nat.lt_succ_self _) (fun y hy =>
          Nat.lt_of_lt_of_le hr.commits (hs.database.ids y hy).1) hlt (fun i r hr => ?_) hlt').symm
        rw [hs'.database.under_eq ht', hs.database.under_eq ht, hc.under_old _ i r hr]
        exact Table.under_congr
          (fun v hv => hdeed.load_eq ((hs.database.owned id t ht).safe v hv)) i r
      · rename_i hge
        obtain ⟨m, rfl⟩ := Nat.exists_eq_add_of_le (Nat.not_lt.mp hge)
        rw [Nat.add_sub_cancel_left]
        cases hm : (x.rowsOf id)[m]? with
        | some row =>
          exact (hc.row?_new (hs.database.catalog.tables id t ht).1 (hs'.database.legible ht') hlt hm
            ((length_of_rowsOf hs hx hactive ht).1 row (List.mem_of_getElem? hm))).symm
        | none =>
          have hle := List.getElem?_eq_none_iff.mp hm
          exact (Table.row?_of_le (hc.rows_eq ▸ Nat.add_le_add_left hle t.rows)).symm
    · obtain rfl := Option.some.inj (hu.symm.trans ht')
      exact hc.rows_eq.symm

/-- **What an active transaction does** is heard of. -/
theorem Told.heard_acts (h : Told start trace s) (hs : s.Sound) {k : Nat} {x x' : Session}
    (ha : a.worker? = some k) (hx : s.session? k = some x) (hm : Session.Minds x x' (s.others k))
    (hacts : x.Acts x' (a.request? o)) (hwhole : a.Whole) (hactive : x'.transaction.state = .active) :
    Heard start (trace ++ [(a, o)]) (s.put k x') k x'.transaction := by
  obtain ⟨hdb, htr⟩ := session?_eq_some.mp hx
  have hbefore := hacts.state hactive
  have hheard := h.active k x.transaction htr hbefore
  have hsx := (hs.session hx).active hbefore
  have hstart : x.transaction.start < neverDeleted :=
    Nat.lt_of_le_of_lt (hsx.ids _ List.mem_cons_self).2.2
      (Nat.lt_trans hsx.last_lt (by decide))
  have hreq (id : TableId) : requestsOf k id (trace ++ [(a, o)]) =
      requestsOf k id trace ++ Request.about id (a.request? o) := by
    rw [requestsOf_snoc, if_pos ha]
  obtain ⟨htidy, hown⟩ := hacts.own hsx (hm.sound.active hactive) hactive
    (fun id c hq => whole_of_request hwhole hq) hheard.tidy
  refine ⟨hm.start_eq ▸ hheard.start_le, htidy, fun id => ?_, fun id t' ht' => ?_⟩
  · rw [hown, hreq, Contents.after_append]
    exact Contents.own_after (hheard.own id) _
  · rw [hreq]
    obtain ⟨t, ht, -⟩ := hacts.touches.of_some ht'
    exact hacts.tells hactive hstart ht ht' (hheard.tells id t (hdb ▸ ht))

/-- **Who has just begun** has done nothing. -/
theorem Told.heard_begun (h : Told start trace s) {x : Transaction} (hs' : s'.Sound)
    (hx : s'.transactions[s.transactions.length]? = some x) (hactive : x.state = .active)
    (hstart : x.start = s.database.lastCommit) (hlocals : x.locals = []) (hundo : x.undo = []) :
    Heard start (trace ++ [(.begin, o)]) s' s.transactions.length x := by
  have hnone (id : TableId) :
      requestsOf s.transactions.length id (trace ++ [(.begin, o)]) = [] := by
    rw [requestsOf_snoc_of_ne (by simp [Action.worker?])]
    exact h.unasked _ id (Or.inl (List.getElem?_eq_none (Nat.le_refl _)))
  refine ⟨hstart ▸ h.grown, fun id l hl => ?_, fun id => ?_, fun id t ht r v _ => ?_⟩
  · rw [hlocals] at hl
    cases hl
  · rw [hnone, Transaction.ownRows, hlocals]
    rfl
  · rw [hnone, Request.onRow_nil]
    exact (onRow_of_unchanged hs' hx hactive hundo ht r v).symm

/-- A table that a step has put there has columns. -/
theorem Deed.definitions_of_new (h : Deed s s' a o) (hs : s.Sound) {id : Nat} {t' : Table}
    (ht : s.database.catalog.tables[id]? = none)
    (ht' : s'.database.catalog.tables[id]? = some t') : t'.definitions ≠ [] := by
  have hold : ∀ t, s.database.catalog.tables[id]? ≠ some t := by simp [ht]
  cases h with
  | acts k x x' ha hx hm hacts hcommit hput =>
    subst hput
    obtain ⟨t, hsome, -⟩ := hacts.touches.of_some ht'
    rw [(session?_eq_some.mp hx).1] at hsome
    exact absurd hsome (hold t)
  | begun h =>
    subst h
    exact absurd ht' (hold t')
  | committed k x x' hx hsx hw h hput =>
    subst hput
    obtain ⟨decoded, b, c', -, hc, hdb⟩ := h.database_eq
    have hsome : x'.database.catalog.tables[id]? = some t' := ht'
    rw [hdb] at hsome
    obtain ⟨t, ht'', -⟩ := hc.of_some hsome
    rw [(session?_eq_some.mp hx).1] at ht''
    exact absurd ht'' (hold t)
  | created name definitions j h heq =>
    obtain ⟨-, hnew, -⟩ := created_tables hs h
    rcases hnew id t' ht' with hsome | ⟨-, -, hne⟩
    · exact absurd hsome (hold t')
    · exact hne
  | dropped name h heq =>
    obtain ⟨-, hsame, -⟩ := dropped_tables hs h
    obtain ⟨t, hsome⟩ := hsame id t' ht'
    exact absurd hsome (hold t)
  | refused b e hb h =>
    subst h
    exact absurd ht' (hold t')

/-- A table has as many rows as before, with the same columns, unless somebody commits. -/
theorem Moves.shape {who : Option Transaction} {id : Nat} {t t' : Table}
    (h : Moves s s' who id t t') :
    t'.definitions = t.definitions ∧ (who = none → t'.rows = t.rows) := by
  cases h with
  | stays hwho h hlast =>
    rw [h]
    exact ⟨rfl, fun _ => rfl⟩
  | touched x hwho hx h hlast =>
    cases h with
    | same h => exact h ▸ ⟨rfl, fun _ => rfl⟩
    | marks rows h hw => exact ⟨h.keeps.definitions_eq, fun _ => h.keeps.rows_eq⟩
    | writes source i pairs targets before h =>
      exact ⟨h.writes.keeps.definitions_eq, fun _ => h.writes.keeps.rows_eq⟩
    | erases h => exact ⟨h.keeps.definitions_eq, fun _ => h.keeps.rows_eq⟩
  | commits x hwho hx h hlast =>
    refine ⟨h.definitions_eq, fun hnone => ?_⟩
    rw [hnone] at hwho
    cases hwho

/-- **What a trace tells after one more step,** from what it tells of those who are at work in it and
of the tables since the last commit. -/
theorem Told.next (h : Told start trace s) (hdeed : Deed s s' a o)
    (hstep : s.step a = some (o, s')) (hs : s.Sound) (hs' : s'.Sound) (hr : s.Room)
    (hcommit : ∀ k τ, commit? (a, o) = some (k, τ) → s.database.lastCommit ≤ τ ∧
      τ ≤ s'.database.lastCommit ∧ ∃ x, s'.transactions[k]? = some x ∧ x.state ≠ .active)
    (hactive : ∀ (k : Nat) (x : Transaction), a.worker? = some k ∨ s.transactions[k]? = none →
      s'.transactions[k]? = some x → x.state = .active → Heard start (trace ++ [(a, o)]) s' k x)
    (hrows : ∀ id time r, s.database.lastCommit ≤ time → time ≤ s'.database.lastCommit →
      (contentsAt (start.contents id) id (trace ++ [(a, o)]) time).row? r =
        s'.row? id (Snapshot.upTo time) r)
    (hlength : ∀ (id : Nat) (t' : Table), s'.database.catalog.tables[id]? = some t' →
      (contentsAt (start.contents id) id (trace ++ [(a, o)]) s'.database.lastCommit).rows.length =
        t'.rows) : Told start (trace ++ [(a, o)]) s' := by
  obtain ⟨who, hprogress, -⟩ := hdeed.progress hs
  have htable : ∀ id : Nat, s'.database.catalog.tables[id]? = none →
      s.database.catalog.tables[id]? = none := by
    intro id hnone
    cases ht : s.database.catalog.tables[id]? with
    | none => rfl
    | some t =>
      obtain ⟨t', ht', -⟩ := hprogress.tables id t ht
      rw [hnone] at ht'
      cases ht'
  have htransaction : ∀ k : Nat, s'.transactions[k]? = none → s.transactions[k]? = none := by
    intro k hnone
    cases hx : s.transactions[k]? with
    | none => rfl
    | some x =>
      obtain ⟨x', hx', -⟩ := hdeed.transaction hx
      rw [hnone] at hx'
      cases hx'
  refine ⟨Nat.le_trans h.grown hdeed.last_le, fun id t' ht' => ?_, fun k id hnone => ?_,
    fun id hnone => h.fresh id (htable id hnone), fun p hp => ?_, ?_, fun k x hx hxa => ?_,
    fun id time r hle hle' => ?_, hlength⟩
  · cases ht : s.database.catalog.tables[id]? with
    | none => exact hdeed.definitions_of_new hs ht ht'
    | some t =>
      obtain ⟨u, hu, hmoves⟩ := hprogress.tables id t ht
      obtain rfl := Option.some.inj (ht'.symm.trans hu)
      exact hmoves.shape.1 ▸ h.columns id t ht
  · have hold := hnone.imp (htransaction k) (htable id)
    rw [requestsOf_snoc, h.unasked k id hold, List.nil_append]
    split
    · rename_i ha
      by_contra hne
      obtain ⟨hk, hid⟩ := request_of_step hstep ha hne
      rcases hold with hold | hold
      · exact absurd hk (Nat.not_lt_of_le (List.getElem?_eq_none_iff.mp hold))
      · exact absurd hid (Nat.not_lt_of_le (Array.getElem?_eq_none_iff.mp hold))
    · rfl
  · rw [commits_snoc] at hp
    rcases List.mem_append.mp hp with hp | hp
    · obtain ⟨hle, x, hx, hended⟩ := h.past p hp
      obtain ⟨x', hx', -, -, hstate⟩ := hdeed.transaction hx
      exact ⟨Nat.le_trans hle hdeed.last_le, x', hx', fun hxa => hended (hstate hxa)⟩
    · exact (hcommit p.1 p.2 (Option.mem_toList.mp hp)).2
  · rw [commits_snoc]
    refine List.pairwise_append.mpr ⟨h.ordered, ?_, fun p hp q hq => ?_⟩
    · cases commit? (a, o) with
      | none => exact List.Pairwise.nil
      | some c => exact List.pairwise_singleton _ c
    · exact Nat.le_trans (h.past p hp).1 (hcommit q.1 q.2 (Option.mem_toList.mp hq)).1
  · by_cases hk : a.worker? = some k ∨ s.transactions[k]? = none
    · exact hactive k x hk hx hxa
    · obtain ⟨hk, hsome⟩ := not_or.mp hk
      obtain ⟨y, hy⟩ := Option.ne_none_iff_exists'.mp hsome
      obtain rfl := Option.some.inj (hx.symm.trans (hdeed.transaction_eq hy hk))
      exact h.heard hdeed hs hr hy hxa hk
  · rcases Nat.lt_or_ge time s.database.lastCommit with hlt | hge
    · rw [h.contentsAt_eq hdeed (fun k τ hc => Nat.lt_of_lt_of_le hlt (hcommit k τ hc).1),
        h.rows id time r hle (Nat.le_of_lt hlt)]
      exact (hdeed.row?_eq hs hs' (Nat.le_of_lt hlt) id r).symm
    · exact hrows id time r hge hle'

/-- What nobody has asked about is as it was. -/
theorem contentsAt_unasked {base : Contents} {table : TableId} (hbase : base.own = [])
    (h : ∀ k, requestsOf k table trace = []) (time : Stamp) :
    contentsAt base table trace time = base := by
  have hclose : base.close = base := by
    rw [Contents.close, hbase, List.filter_nil, List.append_nil, ← hbase]
  rw [contentsAt]
  generalize (commits trace).filter (·.2 ≤ time) = ps
  induction ps using List.reverseRecOn with
  | nil => rfl
  | append_singleton ps p ih =>
    rw [List.foldl_append, ih, List.foldl_cons, List.foldl_nil, h]
    exact hclose

/-- **After a step without a commit** the trace tells of the tables what it told before. -/
theorem Told.next_of_quiet (h : Told start trace s) (hdeed : Deed s s' a o)
    (hstep : s.step a = some (o, s')) (hs : s.Sound) (hs' : s'.Sound) (hr : s.Room)
    (hcommit : commit? (a, o) = none) (hnot : o ≠ .committed (s.database.lastCommit + 1))
    (hactive : ∀ (k : Nat) (x : Transaction), a.worker? = some k ∨ s.transactions[k]? = none →
      s'.transactions[k]? = some x → x.state = .active → Heard start (trace ++ [(a, o)]) s' k x) :
    Told start (trace ++ [(a, o)]) s' := by
  refine h.next hdeed hstep hs hs' hr (by simp [hcommit]) hactive
    (fun id => (h.late_of_quiet hdeed hs hs' hcommit hnot id).1) fun id t' ht' => ?_
  rw [(h.late_of_quiet hdeed hs hs' hcommit hnot id).2]
  obtain ⟨who, hprogress, hwho⟩ := hdeed.progress hs
  cases ht : s.database.catalog.tables[id]? with
  | some t =>
    obtain ⟨u, hu, hmoves⟩ := hprogress.tables id t ht
    obtain rfl := Option.some.inj (ht'.symm.trans hu)
    rw [h.length id t ht, hmoves.shape.2]
    cases who with
    | none => rfl
    | some x =>
      obtain ⟨k, -, -, ho⟩ := hwho x rfl
      exact absurd ho hnot
  | none =>
    rw [contentsAt_unasked (own_contents start id) (fun k => h.unasked k id (Or.inr ht)), h.fresh id ht]
    rcases hprogress.new id t' ht' with ⟨t, hsome⟩ | ⟨-, hrows⟩
    · rw [ht] at hsome
      cases hsome
    · exact hrows.symm

/-- **An operation** keeps what the trace tells. -/
theorem Told.acts (h : Told start trace s) (hdeed : Deed s s' a o) (hstep : s.step a = some (o, s'))
    (hs : s.Sound) (hs' : s'.Sound) (hr : s.Room) (hwhole : a.Whole) {k : Nat} {x x' : Session}
    (ha : a.worker? = some k) (hx : s.session? k = some x) (hm : Session.Minds x x' (s.others k))
    (hacts : x.Acts x' (a.request? o)) (hcommitted : ∀ time, o = .committed time →
      x.transaction.Writing ∧ x.transaction.undo = [] ∧ time = s.database.lastCommit ∧
        x' = x.committed time)
    (hput : s' = s.put k x') : Told start (trace ++ [(a, o)]) s' := by
  subst hput
  obtain ⟨hdb, htr⟩ := session?_eq_some.mp hx
  have hlast : (s.put k x').database.lastCommit = s.database.lastCommit := by
    change x'.database.lastCommit = _
    rw [hm.silent.rest_eq, hdb]
  have hx' : (s.put k x').transactions[k]? = some x'.transaction := by
    rw [transactions_put hx, if_pos rfl]
  have hactive : ∀ (j : Nat) (y : Transaction), a.worker? = some j ∨ s.transactions[j]? = none →
      (s.put k x').transactions[j]? = some y → y.state = .active →
        Heard start (trace ++ [(a, o)]) (s.put k x') j y := by
    intro j y hj hy hya
    obtain rfl : k = j := by
      rcases hj with hj | hj
      · exact Option.some.inj (ha.symm.trans hj)
      · by_contra hne
        rw [transactions_put hx, if_neg hne, hj] at hy
        cases hy
    obtain rfl := Option.some.inj (hx'.symm.trans hy)
    exact h.heard_acts hs ha hx hm hacts hwhole hya
  cases hc : commit? (a, o) with
  | none =>
    refine h.next_of_quiet hdeed hstep hs hs' hr hc (fun ho => ?_) hactive
    exact absurd (hcommitted _ ho).2.2.1 (Nat.succ_ne_self _)
  | some p =>
    -- A commit that is an operation like others is one of no changes.
    obtain ⟨rfl, rfl⟩ : a = .commit p.1 ∧ o = .committed p.2 := by
      unfold commit? at hc
      split at hc
      · rename_i heq
        obtain rfl := Option.some.inj hc
        exact Prod.mk.inj heq
      · cases hc
    obtain rfl : p.1 = k := Option.some.inj ha
    obtain ⟨hw, hundo, hτ, hclosed⟩ := hcommitted _ rfl
    have hlate := fun id => h.late_of_closed hdeed hs hs' htr hw.active hundo hτ id
    refine h.next hdeed hstep hs hs' hr (fun j τ hj => ?_) hactive (fun id time r hle hle' => ?_)
      fun id t' ht' => ?_
    · obtain rfl := Option.some.inj (hc.symm.trans hj)
      refine ⟨Nat.le_of_eq hτ.symm, Nat.le_of_eq (hτ.trans hlast.symm), _, hx', ?_⟩
      rw [hclosed]
      exact fun hstate => by cases hstate
    · obtain rfl : time = p.2 := (Nat.le_antisymm (hlast ▸ hle') hle).trans hτ.symm
      exact (hlate id).1 r
    · rw [hlast, ← hτ, (hlate id).2]
      obtain ⟨t, ht, htouch⟩ := hacts.touches.of_some ht'
      rw [h.length id t (hdb ▸ ht)]
      have hmoves : Moves s (s.put p.1 x') none id t t' :=
        .touched x.transaction rfl (mem_activeOf.mpr ⟨List.mem_of_getElem? htr, hw.active⟩) htouch
          hlast
      exact (hmoves.shape.2 rfl).symm

/-- **A commit of changes** keeps what the trace tells. -/
theorem Told.commits (h : Told start trace s) {k : Nat}
    (hdeed : Deed s s' (.commit k) (.committed (s.database.lastCommit + 1)))
    (hstep : s.step (.commit k) = some (.committed (s.database.lastCommit + 1), s'))
    (hs : s.Sound) (hs' : s'.Sound) (hr : s.Room) {x x' : Session} (hx : s.session? k = some x)
    (hw : x.transaction.Writing) (hc : Session.Commits x x' (s.database.lastCommit + 1))
    (hput : s' = s.put k x') :
    Told start (trace ++ [(.commit k, .committed (s.database.lastCommit + 1))]) s' := by
  subst hput
  obtain ⟨hdb, htr⟩ := session?_eq_some.mp hx
  obtain ⟨decoded, b, c', -, htables, hdb'⟩ := hc.database_eq
  have hlast : (s.put k x').database.lastCommit = s.database.lastCommit + 1 := by
    change x'.database.lastCommit = _
    rw [hdb']
    rfl
  have hcommits : Catalog.Each (Table.Commits x.transaction (s.database.lastCommit + 1))
      s.database.catalog (s.put k x').database.catalog := by
    change Catalog.Each _ _ x'.database.catalog
    rw [hdb', ← hdb]
    exact hdb ▸ htables
  have hended : x'.transaction.state ≠ .active := by
    rw [hc.transaction_eq]
    exact fun hstate => by cases hstate
  have hx' : (s.put k x').transactions[k]? = some x'.transaction := by
    rw [transactions_put hx, if_pos rfl]
  have hlate := fun id => h.late_of_commits hdeed hs hs' hr htr hw.active hcommits id
  refine h.next hdeed hstep hs hs' hr (fun j τ hj => ?_) (fun j y hj hy hya => ?_)
    (fun id time r hle hle' => ?_) fun id t' ht' => ?_
  · obtain ⟨rfl, rfl⟩ := Prod.mk.inj (Option.some.inj hj)
    exact ⟨Nat.le_succ _, Nat.le_of_eq hlast.symm, _, hx', hended⟩
  · by_cases hkj : k = j
    · subst hkj
      obtain rfl := Option.some.inj (hx'.symm.trans hy)
      exact absurd hya hended
    · rw [transactions_put hx, if_neg hkj] at hy
      rcases hj with hj | hj
      · exact absurd (Option.some.inj hj) hkj
      · rw [hj] at hy
        cases hy
  · rcases Nat.lt_or_ge s.database.lastCommit time with hlt | hge
    · obtain rfl := Nat.le_antisymm (Nat.le_trans hle' (Nat.le_of_eq hlast)) hlt
      exact (hlate id).1 r
    · obtain rfl := Nat.le_antisymm hge hle
      rw [h.contentsAt_eq hdeed (fun j τ hj => ?_), h.rows id _ r h.grown (Nat.le_refl _)]
      · exact (hdeed.row?_eq hs hs' (Nat.le_refl _) id r).symm
      · obtain ⟨-, rfl⟩ := Prod.mk.inj (Option.some.inj hj)
        exact Nat.lt_succ_self _
  · rw [hlast]
    exact (hlate id).2 t' ht'

/-- **Every step** keeps what the trace tells. -/
theorem Told.step (h : Told start trace s) (hdeed : Deed s s' a o)
    (hstep : s.step a = some (o, s')) (hs : s.Sound) (hs' : s'.Sound) (hr : s.Room)
    (hwhole : a.Whole) : Told start (trace ++ [(a, o)]) s' := by
  cases hdeed with
  | acts k x x' ha hx hm hacts hcommitted hput =>
    exact h.acts (.acts k x x' ha hx hm hacts hcommitted hput) hstep hs hs' hr hwhole ha hx hm hacts
      hcommitted hput
  | begun heq =>
    have hdeed : Deed s s' .begin .done := .begun heq
    refine h.next_of_quiet hdeed hstep hs hs' hr rfl (by simp) fun k x hk hx hxa => ?_
    subst heq
    have hnone : s.transactions[k]? = none := hk.resolve_left (by simp [Action.worker?])
    have hle := List.getElem?_eq_none_iff.mp hnone
    have hlt := (List.getElem?_eq_some_iff.mp hx).1
    rw [List.length_append, List.length_singleton] at hlt
    obtain rfl : k = s.transactions.length := by omega
    have hnew : x = s.database.newTransaction.1 := by
      rw [List.getElem?_append_right (Nat.le_refl _), Nat.sub_self] at hx
      exact (Option.some.inj hx).symm
    subst hnew
    exact h.heard_begun hs' hx rfl rfl rfl rfl
  | committed k x x' hx hsx hw hc hput =>
    exact h.commits (.committed k x x' hx hsx hw hc hput) hstep hs hs' hr hx hw hc hput
  | created name definitions id hc heq =>
    refine h.next_of_quiet (.created name definitions id hc heq) hstep hs hs' hr rfl (by simp)
      fun k x hk hx hxa => ?_
    rw [heq, hk.resolve_left (by simp [Action.worker?])] at hx
    cases hx
  | dropped name hc heq =>
    refine h.next_of_quiet (.dropped name hc heq) hstep hs hs' hr rfl (by simp)
      fun k x hk hx hxa => ?_
    rw [heq, hk.resolve_left (by simp [Action.worker?])] at hx
    cases hx
  | refused _ e hb heq =>
    refine h.next_of_quiet (.refused a e hb heq) hstep hs hs' hr ?_ (by simp) fun k x hk hx hxa => ?_
    · cases a <;> rfl
    · rw [heq, hk.resolve_left (by simp [hb])] at hx
      cases hx

end Step

end System
end ColumnStore
