/-
# What has happened to the tables

The groups whose commit reached the log and the checkpoints that were installed are the chapters of
what has happened to the tables, and a ledger is what they tell (`Ledger.of`).  The groups are those
that are read of the log, also when its end is lost (`Disk.chapters_of_cut`).
-/

import ColumnStore.Proofs.Database.Growing
import ColumnStore.Proofs.Database.Reading
import ColumnStore.Proofs.Database.Recovery

namespace ColumnStore

/-- A group whose commit reached the log, or a checkpoint that was installed: it gives the rows that
are not deleted new numbers. -/
inductive Chapter where
  | group (es : List LogEntry) (time : Stamp)
  | checkpoint

namespace Chapter

/-- The time of a commit. -/
def time : Chapter → Stamp
  | group _ time => time
  | checkpoint => 0

/-- The largest of the times. -/
def last (cs : List Chapter) : Stamp := (cs.map time).foldr max 0

theorem last_append (cs more : List Chapter) : last (cs ++ more) = max (last cs) (last more) := by
  induction cs with
  | nil => exact (Nat.max_eq_right (Nat.zero_le _)).symm
  | cons c rest ih =>
    change max c.time (last (rest ++ more)) = max (max c.time (last rest)) (last more)
    rw [ih, Nat.max_assoc]

/-- The next commit is the last one. -/
theorem last_group (cs : List Chapter) (es : List LogEntry) :
    last (cs ++ [group es (last cs + 1)]) = last cs + 1 := by
  rw [last_append]
  exact Nat.max_eq_right (Nat.le_trans (Nat.le_succ _) (Nat.le_max_left _ _))

/-- The chapter of a checkpoint that was taken; one that was refused is none. -/
def ofCheckpoint : Except TransactionError Nat → List Chapter
  | .ok _ => [checkpoint]
  | .error _ => []

/-- The groups of some entries of a log, which end with their commits; `pending` are the entries since
the last commit, the newest first. -/
def ofEntries (pending : List LogEntry) : List LogEntry → List Chapter
  | [] => []
  | .commit time :: rest => group pending.reverse time :: ofEntries [] rest
  | .checkpoint _ :: rest => ofEntries pending rest
  | e :: rest => ofEntries (e :: pending) rest

end Chapter

/-- The chapter of a group; markers are none. -/
def LogGroup.chapter? : LogGroup → Option Chapter
  | changes es time => some (.group es time)
  | marker _ => none

/-- The groups whose commit is read of the log. -/
def Disk.chapters (d : Disk) : List Chapter :=
  match Log.read d (Log.path Database.logDirectory) with
  | .ok log => Chapter.ofEntries [] (log.entries.map (·.1))
  | .error _ => []

namespace Ledger

/-- What a chapter makes of the tables. -/
def turn (l : Ledger) : Chapter → Ledger
  | .group es _ => es.foldl enter l
  | .checkpoint => l.renumber

/-- What chapters tell of the tables, the oldest first. -/
def of (cs : List Chapter) : Ledger := cs.foldl turn []

theorem of_append (cs more : List Chapter) : of (cs ++ more) = more.foldl turn (of cs) :=
  List.foldl_append

end Ledger

/-! ## The groups in the log -/

namespace Chapter

theorem ofEntries_changes {es : List LogEntry} (h : ∀ e ∈ es, e.IsChange)
    (pending rest : List LogEntry) :
    ofEntries pending (es ++ rest) = ofEntries (es.reverse ++ pending) rest := by
  induction es generalizing pending with
  | nil => rfl
  | cons e more ih =>
    have he := h e List.mem_cons_self
    have hmore := ih (fun x hx => h x (List.mem_cons_of_mem _ hx)) (e :: pending)
    rw [List.reverse_cons, List.append_assoc, List.singleton_append, ← hmore]
    cases e <;> first | rfl | exact he.elim

end Chapter

variable {es orphans : List (LogEntry × Nat)} {gs : List (LogGroup × Nat)}

/-- **The groups of a log** are what is read of its entries. -/
theorem Log.Groups.ofEntries (h : Log.Groups es gs) (horphans : ∀ p ∈ orphans, p.1.IsChange) :
    Chapter.ofEntries [] ((es ++ orphans).map (·.1)) = gs.filterMap (·.1.chapter?) := by
  have hchanges : ∀ {xs : List (LogEntry × Nat)}, (∀ p ∈ xs, p.1.IsChange) →
      ∀ e ∈ xs.map (·.1), e.IsChange := by
    intro xs hxs e he
    obtain ⟨p, hp, rfl⟩ := List.mem_map.mp he
    exact hxs p hp
  induction h with
  | nil =>
    have hlost := Chapter.ofEntries_changes (hchanges horphans) [] []
    rw [List.append_nil] at hlost
    rw [List.nil_append, hlost]
    rfl
  | @changes es more gs time stop hc _ ih =>
    rw [List.append_assoc, List.map_append, Chapter.ofEntries_changes (hchanges hc),
      List.cons_append, List.map_cons, Chapter.ofEntries, ih, List.append_nil, List.reverse_reverse]
    rfl
  | marker _ ih =>
    rw [List.cons_append, List.map_cons, Chapter.ofEntries, ih]
    rfl

namespace Disk

variable {d d₁ : Disk} {file : FileId}

theorem chapters_of_holds (h : Log.Holds d (Log.path Database.logDirectory) file es)
    (hg : Log.Groups es gs) : d.chapters = gs.filterMap (·.1.chapter?) := by
  have hnone : ∀ p ∈ ([] : List (LogEntry × Nat)), p.1.IsChange := fun p hp =>
    absurd hp List.not_mem_nil
  have hread := hg.ofEntries hnone
  rw [List.append_nil] at hread
  rw [chapters, h.read]
  exact hread

/-- **Of a log that is cut off** the groups are read that end in front of the cut. -/
theorem chapters_of_cut (h : Log.Holds d (Log.path Database.logDirectory) file es)
    (hg : Log.Groups es gs) (hd : SameBut file d d₁) {n : Nat}
    (hb : d₁.bytes file = (d.bytes file).take n) (hn : n ≤ (d.bytes file).length) :
    d₁.chapters = (Log.within n gs).filterMap (·.1.chapter?) := by
  have hlen : (d₁.bytes file).length = n := by
    rw [hb, List.length_take, Nat.min_eq_left hn]
  rw [chapters]
  by_cases hheader : n < FileHeader.length
  · rw [h.read_short hd (hlen ▸ hheader), h.within_header hg hheader]
    rfl
  · obtain ⟨header, body, kept, lost, rfl, hlost, -, hf, hle, -, hread⟩ :=
      h.read_cut hd hb hn (Nat.not_lt.mp hheader)
    obtain ⟨front, orphans, rest, rfl, -, hfront, horphans, -⟩ :=
      hg.cut (fun p hp => Nat.le_trans (hf.stop_mem p hp).2 hle) hlost
    rw [hread]
    exact hfront.ofEntries horphans

end Disk

/-! ## What is read -/

/-- A table as a ledger tells it, with its rows in their order: they are seen by everybody. -/
structure LedgerTable.Listed (l : LedgerTable) (source : Source) (t : Table) : Prop where
  definitions_eq : t.definitions = l.definitions
  rows : List.Forall₂ Row.Same ((List.range t.rows).filterMap (t.row? source .committed))
    (l.rows.filterMap id)

/-- A database with the tables that a ledger tells of, and no others. -/
structure Ledger.Listed (l : Ledger) (db : Database) : Prop where
  names : (l.map (·.name)).Perm (db.catalog.names.map (·.1))
  tables : ∀ x ∈ l, ∃ id t, db.catalog.get x.name = .ok id ∧ db.catalog.tables[id]? = some t ∧
    t.dropped = false ∧ x.Listed db.source t

/-- Rows with the same numbers, those that are there. -/
theorem forall₂_filterMap_range {α β : Type} {R : α → β → Prop} (f : Nat → Option α)
    (xs : List (Option β)) (h : ∀ r x, xs[r]? = some x → Option.Rel R (f r) x) :
    List.Forall₂ R ((List.range xs.length).filterMap f) (xs.filterMap id) := by
  induction xs using List.reverseRecOn with
  | nil => exact .nil
  | append_singleton xs x ih =>
    rw [List.length_append, List.length_singleton, List.range_succ, List.filterMap_append,
      List.filterMap_append]
    refine List.rel_append (ih fun r y hy => h r y ?_) ?_
    · rw [List.getElem?_append_left (List.getElem?_eq_some_iff.mp hy).1, hy]
    · have hx := h xs.length x (by rw [List.getElem?_append_right (Nat.le_refl _), Nat.sub_self]; rfl)
      rw [List.filterMap_cons, List.filterMap_cons]
      generalize f xs.length = y at hx
      cases hx with
      | none => exact .nil
      | some hr => exact .cons hr .nil

theorem filterMap_filter_isSome {α : Type} (xs : List (Option α)) :
    (xs.filter (·.isSome)).filterMap id = xs.filterMap id := by
  rw [List.filterMap_filter]
  congr 1
  funext x
  cases x <;> rfl

/-- **New numbers for the rows** change nothing of what is read. -/
theorem Ledger.Listed.of_renumber {l : Ledger} {db : Database} (h : l.renumber.Listed db) :
    l.Listed db where
  names := by
    have hnames := h.names
    rwa [renumber, List.map_map] at hnames
  tables x hx := by
    obtain ⟨id, t, hget, ht, hd, hdefinitions, hrows⟩ := h.tables _ (List.mem_map_of_mem hx)
    refine ⟨id, t, hget, ht, hd, hdefinitions, ?_⟩
    rwa [filterMap_filter_isSome] at hrows

/-- **A checkpoint** changes nothing of what is read, taken or refused. -/
theorem Ledger.Listed.of_checkpoint {cs : List Chapter} {r : Except TransactionError Nat}
    {db : Database} (h : (of (cs ++ Chapter.ofCheckpoint r)).Listed db) : (of cs).Listed db := by
  cases r with
  | ok iteration =>
    rw [Chapter.ofCheckpoint, of_append] at h
    exact Listed.of_renumber h
  | error e => rwa [Chapter.ofCheckpoint, List.append_nil] at h

variable {source : Source}

theorem LedgerTable.Tells.listed {l : LedgerTable} {t : Table} (h : l.Tells source t)
    (ht : t.Legible source) : l.Listed source t where
  definitions_eq := h.definitions_eq
  rows := by
    rw [h.rows_eq]
    refine forall₂_filterMap_range _ _ fun r x hx => ?_
    have hshows := h.shows r x hx
    cases x with
    | none =>
      rw [Table.row?_of_hidden hshows.visible]
      exact .none
    | some row =>
      obtain ⟨row', hrow, hlen, hvalues⟩ := Table.row?_of_visible ht hshows.visible
      obtain ⟨hwidth, hsame⟩ := hshows.values row rfl
      rw [hrow]
      refine .some (forall₂_iff_getElem?.mpr ⟨hlen.trans hwidth.symm, fun i v y hv hy => ?_⟩)
      obtain ⟨w, hw, hwy⟩ := hsame i y hy
      have hi : i < t.definitions.length := hlen ▸ (List.getElem?_eq_some_iff.mp hv).1
      have hread := hvalues i hi
      rw [List.getD_eq_getElem?_getD, hv, Option.getD_some, hw] at hread
      exact Except.ok.inj hread ▸ hwy

/-- **The tables of a database** are as a ledger tells. -/
theorem Ledger.Tells.listed {l : Ledger} {db : Database} (h : l.Tells db.source db.catalog)
    (hdb : db.Sound []) : l.Listed db where
  names := h.names
  tables x hx := by
    obtain ⟨id, t, hm, ht, hxt⟩ := h.tables x hx
    obtain ⟨u, hu, hname, hdropped⟩ := hdb.catalog.named x.name id hm
    obtain rfl := Option.some.inj (ht.symm.trans hu)
    exact ⟨id, t, hname ▸ hdb.catalog.find ht hdropped, ht, hdropped, hxt.listed (hdb.legible ht)⟩

end ColumnStore
