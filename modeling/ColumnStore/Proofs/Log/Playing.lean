/-
# Entries on one table

The entries of a group that name tables act on each table on its own: a group can be replayed when
on every table the entries that name it can (`applyGroup_of_plays`).
-/

import ColumnStore.Proofs.Database.Committing
import ColumnStore.Proofs.Log.Groups

namespace ColumnStore

/-- The table whose rows an entry changes. -/
def LogEntry.target? : LogEntry → Option String
  | .insert table _ | .delete table _ | .update table _ _ _ => some table
  | _ => none

namespace Table

/-- What an entry does to its table. -/
def enact (time : Stamp) (t : Table) : LogEntry → Attempt StorageError Table Unit
  | .insert _ rows => let (r, t) := t.appendRows rows time; (r.map fun _ => (), t)
  | .delete _ rows => t.deleteCommitted rows time
  | .update _ column rows values => t.updateCommitted column rows values time
  | _ => (.ok (), t)

/-- What entries do to a table that all name it, if none is refused. -/
inductive Plays (time : Stamp) : List LogEntry → Table → Table → Prop
  | nil (t : Table) : Plays time [] t t
  | cons {e : LogEntry} {es : List LogEntry} {t t₁ t' : Table}
      (h : t.enact time e = (.ok (), t₁)) (h' : Plays time es t₁ t') : Plays time (e :: es) t t'

theorem Plays.append {time : Stamp} {es more : List LogEntry} {t t₁ t' : Table}
    (h : Plays time es t t₁) (h' : Plays time more t₁ t') : Plays time (es ++ more) t t' := by
  induction h with
  | nil => exact h'
  | cons he _ ih => exact .cons he (ih h')

theorem Plays.single {time : Stamp} {e : LogEntry} {t t' : Table}
    (h : t.enact time e = (.ok (), t')) : Plays time [e] t t' := .cons h (.nil t')

theorem Plays.det {time : Stamp} {es : List LogEntry} {t t' u : Table} (h : Plays time es t t')
    (h' : Plays time es t u) : u = t' := by
  induction h with
  | nil =>
    cases h'
    rfl
  | cons he _ ih =>
    cases h' with
    | cons he' hrest =>
      obtain rfl := (Prod.mk.inj (he.symm.trans he')).2
      exact ih hrest

end Table

/-- The table in a catalog that an entry is about. -/
def Catalog.aim? (c : Catalog) (e : LogEntry) : Option TableId := e.target?.bind c.find?

/-- The entries that are about a table. -/
def Catalog.entriesOf (c : Catalog) (id : TableId) (es : List LogEntry) : List LogEntry :=
  es.filter (c.aim? · = some id)

namespace Catalog

variable {c : Catalog} {id : TableId}

@[simp] theorem entriesOf_nil : c.entriesOf id [] = [] := rfl

theorem entriesOf_append (es more : List LogEntry) :
    c.entriesOf id (es ++ more) = c.entriesOf id es ++ c.entriesOf id more := List.filter_append ..

theorem entriesOf_congr {c' : Catalog} (h : c'.names = c.names) (es : List LogEntry) :
    c'.entriesOf id es = c.entriesOf id es := by
  have haim : c'.aim? = c.aim? := by
    funext e
    rw [aim?, aim?, show c'.find? = c.find? from funext fun name => by rw [find?, find?, h]]
  rw [entriesOf, entriesOf, haim]

theorem entriesOf_of_aim {es : List LogEntry} (h : ∀ e ∈ es, c.aim? e = some id) :
    c.entriesOf id es = es := List.filter_eq_self.mpr fun e he => by simpa using h e he

theorem entriesOf_of_ne {es : List LogEntry} (h : ∀ e ∈ es, c.aim? e ≠ some id) :
    c.entriesOf id es = [] := List.filter_eq_nil_iff.mpr fun e he => by simpa using h e he

end Catalog

namespace Replay

/-- **An entry changes its table.** -/
theorem apply_of_aim {c : Catalog} {e : LogEntry} {id : TableId} (policy : SegmentPolicy)
    (time : Stamp) (h : c.aim? e = some id) :
    apply policy time c e = c.change id (Table.enact time · e) := by
  obtain ⟨name, htarget, hfind⟩ := Option.bind_eq_some_iff.mp h
  have hget : c.get name = .ok id := by rw [Catalog.get, hfind]
  cases e <;> first | cases htarget; rw [apply, apply.onTable, hget]; rfl | cases htarget

/-- **The entries of a group act on each table on its own.** -/
theorem applyGroup_of_plays (policy : SegmentPolicy) (time : Stamp) (c : Catalog)
    (es : List LogEntry) (haim : ∀ e ∈ es, ∃ id, c.aim? e = some id ∧ id < c.tables.size)
    (hplays : ∀ (j : Nat) (t : Table), c.tables[j]? = some t →
      ∃ t', Table.Plays time (c.entriesOf j es) t t') :
    ∃ c', applyGroup policy time c es = (.ok (), c') ∧
      Catalog.Each (fun j => Table.Plays time (c.entriesOf j es)) c c' := by
  induction es generalizing c with
  | nil => exact ⟨c, rfl, rfl, rfl, fun j t ht => ⟨t, ht, .nil t⟩⟩
  | cons e rest ih =>
    obtain ⟨id, hid, hlt⟩ := haim e List.mem_cons_self
    have ht := Array.getElem?_eq_getElem hlt
    have hhead : ∀ j, c.entriesOf j (e :: rest) =
        if j = id then e :: c.entriesOf j rest else c.entriesOf j rest := by
      intro j
      by_cases hj : j = id
      · rw [if_pos hj]
        exact List.filter_cons_of_pos (by simpa [hj] using hid)
      · rw [if_neg hj]
        exact List.filter_cons_of_neg (by simpa [hid] using Ne.symm hj)
    obtain ⟨t', hp⟩ := hplays id _ ht
    rw [hhead id, if_pos rfl] at hp
    cases hp with
    | @cons _ _ _ t₁ _ he hrest =>
      have hc₁ : apply policy time c e = (.ok (), c.setTable id t₁) := by
        rw [apply_of_aim policy time hid, Catalog.change, Catalog.table_of_some ht, he]
      have hnames : (c.setTable id t₁).names = c.names := rfl
      have haim' : ∀ e, (c.setTable id t₁).aim? e = c.aim? e := fun _ => rfl
      obtain ⟨c', hc', heach⟩ := ih (c := c.setTable id t₁) (fun e' he' => by
        obtain ⟨i, hi, hi'⟩ := haim e' (List.mem_cons_of_mem _ he')
        exact ⟨i, (haim' e').trans hi, by simpa [Catalog.setTable] using hi'⟩) fun j u hu => by
          rw [Catalog.entriesOf_congr hnames]
          rw [Catalog.tables_setTable ht] at hu
          split at hu
          · rename_i hj
            obtain rfl := Option.some.inj hu
            exact hj ▸ ⟨t', hrest⟩
          · rename_i hj
            obtain ⟨u', hu'⟩ := hplays j u hu
            rw [hhead j, if_neg hj] at hu'
            exact ⟨u', hu'⟩
      refine ⟨c', by rw [applyGroup, hc₁]; exact hc', heach.names_eq,
        heach.size_eq.trans Array.size_setIfInBounds, fun j u hu => ?_⟩
      rw [hhead j]
      by_cases hj : j = id
      · subst hj
        obtain rfl := Option.some.inj (ht.symm.trans hu)
        obtain ⟨u', hu', hplay⟩ := heach.tables j t₁ (by rw [Catalog.tables_setTable ht, if_pos rfl])
        rw [Catalog.entriesOf_congr hnames] at hplay
        exact ⟨u', hu', by rw [if_pos rfl]; exact .cons he hplay⟩
      · obtain ⟨u', hu', hplay⟩ := heach.tables j u (by rw [Catalog.tables_setTable ht, if_neg hj, hu])
        rw [Catalog.entriesOf_congr hnames] at hplay
        exact ⟨u', hu', by rw [if_neg hj]; exact hplay⟩

end Replay
end ColumnStore
