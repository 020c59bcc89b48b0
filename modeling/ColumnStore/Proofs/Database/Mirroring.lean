/-
# What a mirror shows

Where no transaction is active, a table shows what its mirror does (`Table.Mirrors.shows`), and it can
be read when its mirror can.  So a ledger that tells the mirror of a database tells the database
(`Catalog.Mirrors.tells`).
-/

import ColumnStore.Proofs.Database.Naming
import ColumnStore.Proofs.Database.Growing
import ColumnStore.Proofs.Database.RoundTrip

namespace ColumnStore

/-! ## Tables -/

namespace Table

variable {safe : StoredValues → Prop} {last : Stamp} {t u : Table}

theorem Settled.stamps_last (h : t.Settled safe last) (hlt : last < neverDeleted) (r : Nat) :
    (t.stamps? r).bind (Snapshot.upTo last).stamps? = t.stamps? r := by
  cases hst : t.stamps? r with
  | none => rfl
  | some st =>
    obtain ⟨hins, hdel⟩ := h.stamps r st hst
    exact Snapshot.stamps?_upTo hlt hins hdel

/-- **A settled table** is its own mirror. -/
theorem Settled.mirrors_self (h : t.Settled safe last) (hs : t.Sound) (hlt : last < neverDeleted) :
    Mirrors last t t :=
  ⟨hs, rfl, rfl, rfl, rfl, rfl, fun r => (h.stamps_last hlt r).symm, fun _ _ _ _ => rfl, h.written⟩

/-- **A settled table shows** what its mirror does. -/
theorem Mirrors.shows (h : Mirrors last t u) (ht : t.Settled safe last)
    (hlt : last < firstTransaction) {d : Disk} {r : Nat} {x : Option Row}
    (hx : u.Shows d.source r x) : t.Shows d.source r x := by
  refine hx.congr h.definitions_eq.symm ?_ fun i => ?_
  · rw [h.stamps_eq, ht.stamps_last (Nat.lt_trans hlt (by decide))]
  · have hunder := under_of_bare h.name_eq h.bare_eq (fun v _ => d.blind v) (fun v _ => d.blind v) i r
    have hseen : seen? (t.chain i r) .committed = seen? (u.chain i r) .committed := by
      have hle : last ≤ firstTransaction - 1 := Nat.le_sub_one_of_lt hlt
      change seen? _ (Snapshot.upTo (firstTransaction - 1)) =
        seen? _ (Snapshot.upTo (firstTransaction - 1))
      rw [seen_upTo_of_le (ht.written i r) hle, seen_upTo_of_le (h.settled i r) hle,
        h.seen_eq last (Nat.le_refl _)]
    rw [value, value, ← hunder]
    exact readOver_of_seen hseen _

/-- **A table can be read** when its mirror can. -/
theorem Mirrors.readable (h : Mirrors last t u) {d : Disk} (hu : u.Readable d.source) :
    t.Readable d.source := by
  intro c hc row hrow
  obtain ⟨i, hi⟩ := List.mem_iff_getElem?.mp hc
  have hlen : u.columns.length = t.columns.length := by
    simpa using congrArg List.length h.bare_eq
  have hi' := List.getElem?_eq_getElem (hlen ▸ (List.getElem?_eq_some_iff.mp hi).1)
  have hbare : (u.columns[i]?).map Column.bare = (t.columns[i]?).map Column.bare := by
    rw [← List.getElem?_map, ← List.getElem?_map, h.bare_eq]
  rw [hi, hi', Option.map_some, Option.map_some] at hbare
  have hrows := (Column.bare_eq_iff.mp (Option.some.inj hbare)).2.2.1
  obtain ⟨x, hx⟩ := hu _ (List.mem_of_getElem? hi') row (hrows ▸ hrow)
  refine ⟨x, ?_⟩
  have hunder := under_of_bare h.name_eq h.bare_eq (fun v _ => d.blind v) (fun v _ => d.blind v) i row
  rw [under_of_some hi, under_of_some hi'] at hunder
  exact hunder ▸ hx

end Table

/-! ## Catalogs -/

namespace Catalog

variable {policy : SegmentPolicy} {safe : StoredValues → Prop} {last : Stamp} {c m : Catalog}

/-- **A settled catalog** is its own mirror. -/
theorem Settled.mirrors_self (h : c.Settled policy safe last) (hlt : last < neverDeleted) :
    c.Mirrors last c where
  sound := h.sound
  names_eq := rfl
  tables id t ht hd := ⟨id, t, get_eq_ok.mp (h.sound.find ht hd), ht,
    (h.tables id t ht).2.mirrors_self (h.sound.tables id t ht).1 hlt⟩

/-- Tables that are not dropped have the columns of their mirrors. -/
theorem Mirrors.wide (h : c.Mirrors last m) (hm : m.Regular) {id : Nat} {t : Table}
    (ht : c.tables[id]? = some t) (hd : t.dropped = false) : t.definitions ≠ [] := by
  obtain ⟨j, u, -, hu, hmu⟩ := h.tables id t ht hd
  exact hmu.definitions_eq ▸ hm.wide j u hu

/-- **A settled catalog is told** by the ledger that tells its mirror. -/
theorem Mirrors.tells (h : c.Mirrors last m) (hc : c.Settled policy safe last)
    (hlt : last < firstTransaction) {d : Disk} {l : Ledger} (hl : l.Tells d.source m) :
    l.Tells d.source c where
  names := h.names_eq ▸ hl.names
  tables x hx := by
    obtain ⟨j, u, hj, hu, hxu⟩ := hl.tables x hx
    have hname : x.name ∈ c.names.map (·.1) := h.names_eq ▸ List.mem_map_of_mem hj
    obtain ⟨⟨name, id⟩, hid, rfl⟩ := List.mem_map.mp hname
    obtain ⟨t, ht, hname, hd⟩ := hc.sound.named _ id hid
    obtain ⟨j', u', hj', hu', hmu⟩ := h.tables id t ht hd
    obtain rfl : j = j' := by
      rw [hname] at hj'
      have hall := List.inj_on_of_nodup_map h.sound.names_nodup hj (mem_of_get (get_eq_ok.mpr hj')) rfl
      exact (Prod.mk.inj hall).2
    obtain rfl := Option.some.inj (hu.symm.trans hu')
    refine ⟨id, t, hid, ht, hmu.definitions_eq ▸ hxu.definitions_eq, hmu.rows_eq ▸ hxu.rows_eq,
      fun r y hy => hmu.shows (hc.tables id t ht).2 hlt (hxu.shows r y hy)⟩

end Catalog

/-- **An idle database is told** by the ledger that tells its mirror, with what it has decoded. -/
theorem Database.Idle.tells {db : Database} (h : db.Idle) {m : Catalog}
    (hm : db.catalog.Mirrors db.lastCommit m) {l : Ledger} (hl : l.Tells db.disk.source m) :
    l.Tells db.source db.catalog :=
  (hm.tells h.catalog h.last_lt hl).keeps h.catalog.tables_safe h.kept.known

end ColumnStore
