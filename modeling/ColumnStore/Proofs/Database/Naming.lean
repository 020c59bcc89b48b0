/-
# Names in order

The names of a catalog ascend and its tables have columns, whatever is replayed (`Catalog.Regular`).
So tables that are added in the order of their names stay in that order
(`Catalog.insertTables_eq`).
-/

import ColumnStore.Database.Open
import ColumnStore.Proofs.Database.Settled
import Mathlib.Data.String.Basic

namespace ColumnStore
namespace Catalog

/-- A catalog with names in ascending order and tables with columns. -/
structure Regular (c : Catalog) : Prop where
  ascending : (c.names.map (·.1)).Pairwise (· < ·)
  wide : ∀ (id : Nat) (t : Table), c.tables[id]? = some t → t.definitions ≠ []

variable {c c' : Catalog} {name : String} {id : TableId} {names : List (String × TableId)}

theorem regular_empty : ({} : Catalog).Regular := ⟨.nil, fun id t ht => by simp at ht⟩

/-- **A name is put in its place** among the others. -/
theorem ascending_insertName (h : (names.map (·.1)).Pairwise (· < ·))
    (hfree : name ∉ names.map (·.1)) (id : TableId) :
    ((insertName name id names).map (·.1)).Pairwise (· < ·) := by
  induction names with
  | nil => exact List.pairwise_singleton _ _
  | cons p rest ih =>
    obtain ⟨n, i⟩ := p
    rw [List.map_cons, List.mem_cons, not_or] at hfree
    obtain ⟨hfirst, hrest⟩ := List.pairwise_cons.mp h
    unfold insertName
    split
    · rename_i hlt
      refine List.pairwise_cons.mpr ⟨fun m hm => ?_, h⟩
      rcases List.mem_cons.mp hm with rfl | hm
      · exact hlt
      · exact lt_trans hlt (hfirst m hm)
    · rename_i hlt
      have hbefore : n < name := lt_of_le_of_ne (not_lt.mp hlt) (Ne.symm hfree.1)
      refine List.pairwise_cons.mpr ⟨fun m hm => ?_, ih hrest hfree.2⟩
      have hm := ((insertName_perm name id rest).map (·.1)).mem_iff.mp hm
      rcases List.mem_cons.mp hm with rfl | hm
      · exact hbefore
      · exact hfirst m hm

theorem Regular.insert (h : c.Regular) {t : Table} (ht : t.definitions ≠ [])
    (hok : c.insert t = .ok (id, c')) : c'.Regular := by
  obtain ⟨hfree, -, rfl⟩ := insert_ok hok
  refine ⟨ascending_insertName h.ascending hfree _, fun j u hu => ?_⟩
  rw [getElem?_push] at hu
  split at hu
  · exact Option.some.inj hu ▸ ht
  · exact h.wide j u hu

theorem Regular.setTable (h : c.Regular) {t t' : Table} (ht : c.tables[id]? = some t)
    (hd : t'.definitions = t.definitions) : (c.setTable id t').Regular := by
  refine ⟨h.ascending, fun j u hu => ?_⟩
  rw [tables_setTable ht] at hu
  split at hu
  · rw [← Option.some.inj hu, hd]
    exact h.wide id t ht
  · exact h.wide j u hu

theorem Regular.remove (h : c.Regular) (hc : c.Sound) (hok : c.remove name = .ok (id, c')) :
    c'.Regular := by
  obtain ⟨hget, rfl⟩ := remove_ok hok
  obtain ⟨t, ht, -, -⟩ := hc.named name id (mem_of_get hget)
  rw [table_of_some ht]
  have hset : (c.setTable id { t with dropped := true }).Regular := h.setTable ht rfl
  refine ⟨?_, hset.wide⟩
  exact h.ascending.sublist (List.filter_sublist.map _)

end Catalog

namespace Replay

variable {policy : SegmentPolicy} {safe : StoredValues → Prop} {last time : Stamp} {c c' : Catalog}

/-- **An entry that is replayed** keeps the names in order. -/
theorem regular_apply (h : c.Regular) (hc : c.Settled policy safe last) (hle : last ≤ time)
    {e : LogEntry} (hok : apply policy time c e = (.ok (), c')) : c'.Regular := by
  have htable : ∀ name, e.target? = some name → c'.Regular := by
    intro name htarget
    obtain ⟨id, t, -, ht, t', hen, rfl⟩ := of_apply hc.sound htarget hok
    obtain ⟨hcontinues, -⟩ := (hc.tables id t ht).2.enact (hc.sound.tables id t ht).1 hle hen
    exact h.setTable ht hcontinues.definitions_eq
  cases e with
  | createTable name columns =>
    obtain ⟨t, hnew, hx⟩ := bind_eq_ok.mp (Attempt.ofExcept_eq_ok.mp hok)
    obtain ⟨⟨id, c₁⟩, hinsert, hx⟩ := bind_eq_ok.mp hx
    obtain rfl := (Prod.mk.inj (Except.ok.inj hx)).2
    exact h.insert (Table.definitions_ne_nil hnew) hinsert
  | dropTable name =>
    obtain ⟨⟨id, c₁⟩, hremove, hx⟩ := bind_eq_ok.mp (Attempt.ofExcept_eq_ok.mp hok)
    obtain rfl := (Prod.mk.inj (Except.ok.inj hx)).2
    exact h.remove hc.sound hremove
  | insert table rows => exact htable table rfl
  | delete table rows => exact htable table rfl
  | update table column rows values => exact htable table rfl
  | checkpoint n | commit n =>
    obtain rfl := (Prod.mk.inj hok).2
    exact h

/-- **A group that is replayed** keeps the names in order. -/
theorem regular_applyGroup (h : c.Regular) (hp : 0 < policy.capacity)
    (hc : c.Settled policy safe last) (hle : last ≤ time) {es : List LogEntry}
    (hn : ∀ e ∈ es, e.Narrow) (hok : applyGroup policy time c es = (.ok (), c')) : c'.Regular := by
  have hc' := hc.mono hle
  clear hc
  induction es generalizing c with
  | nil =>
    obtain rfl := (Prod.mk.inj hok).2
    exact h
  | cons e rest ih =>
    obtain ⟨⟨⟩, c₁, hone, hok⟩ := Attempt.andThen_eq_ok.mp hok
    exact ih (regular_apply h hc' (Nat.le_refl _) hone) (fun e he => hn e (List.mem_cons_of_mem _ he))
      hok (settled_apply hp hc' (Nat.le_refl _) (hn e List.mem_cons_self) hone)

end Replay

/-! ## Tables in the order of their names -/

namespace Catalog

/-- A catalog of tables that are numbered in their order. -/
def ofTables (ts : List Table) : Catalog where
  tables := ts.toArray
  names := ts.zipIdx.map fun p => (p.1.name, p.2)

variable {ts : List Table}

theorem names_ofTables (ts : List Table) : (ofTables ts).names.map (·.1) = ts.map (·.name) := by
  rw [ofTables, List.map_map]
  refine List.ext_getElem (by simp) fun i hi hi' => ?_
  simp

theorem tables_ofTables (ts : List Table) (i : Nat) : (ofTables ts).tables[i]? = ts[i]? :=
  List.getElem?_toArray

theorem mem_names_ofTables {i : Nat} {t : Table} (h : ts[i]? = some t) :
    (t.name, i) ∈ (ofTables ts).names :=
  List.mem_map.mpr ⟨(t, i), List.mk_mem_zipIdx_iff_getElem?.mpr h, rfl⟩

/-- A name that is greater than the others comes last. -/
theorem insertName_last {name : String} {names : List (String × TableId)}
    (h : ∀ p ∈ names, p.1 < name) (id : TableId) :
    insertName name id names = names ++ [(name, id)] := by
  induction names with
  | nil => rfl
  | cons p rest ih =>
    obtain ⟨n, i⟩ := p
    unfold insertName
    rw [if_neg (lt_asymm (h _ List.mem_cons_self)), List.cons_append,
      ih fun q hq => h q (List.mem_cons_of_mem _ hq)]

theorem insert_ofTables {t : Table} (h : ∀ u ∈ ts, u.name < t.name) :
    (ofTables ts).insert t = .ok (ts.length, ofTables (ts ++ [t])) := by
  have hbefore : ∀ p ∈ (ofTables ts).names, p.1 < t.name := by
    intro p hp
    have hm : p.1 ∈ (ofTables ts).names.map (·.1) := List.mem_map_of_mem hp
    rw [names_ofTables] at hm
    obtain ⟨u, hu, heq⟩ := List.mem_map.mp hm
    exact heq ▸ h u hu
  have hfree : (ofTables ts).contains t.name = false := by
    rw [contains, find?, Option.isSome_eq_false_iff, Option.isNone_iff_eq_none,
      List.lookup_eq_none_iff]
    intro p hp
    simpa using (hbefore p hp).ne'
  rw [insert, if_neg (by simp [hfree]), insertName_last hbefore]
  refine congrArg _ (Prod.ext rfl ?_)
  simp [ofTables, List.zipIdx_append]

/-- **Tables that are added in the order of their names** stay in that order. -/
theorem insertTables_eq (h : (ts.map (·.name)).Pairwise (· < ·)) :
    Database.insertTables {} ts = .ok (ofTables ts) := by
  have hall : ∀ (rest front : List Table), ((front ++ rest).map (·.name)).Pairwise (· < ·) →
      Database.insertTables (ofTables front) rest = .ok (ofTables (front ++ rest)) := by
    intro rest
    induction rest with
    | nil =>
      intro front _
      rw [List.append_nil]
      rfl
    | cons t rest ih =>
      intro front h
      have hbefore : ∀ u ∈ front, u.name < t.name := fun u hu => by
        rw [List.map_append, List.pairwise_append] at h
        exact h.2.2 u.name (List.mem_map_of_mem hu) t.name List.mem_cons_self
      rw [List.append_cons] at h ⊢
      rw [Database.insertTables, insert_ofTables hbefore, ok_bind]
      exact ih (front ++ [t]) h
  exact hall ts [] h

end Catalog
end ColumnStore
