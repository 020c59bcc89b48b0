/-
# Settled tables

Where no transaction is active, every stamp is the time of a commit, and the versions of a row are in
the order of their times (`Table.Settled`).  What is replayed from a log whose times do not go back
leaves settled tables (`Replay.settled_applyAll`), and settled tables make a sound database.
-/

import ColumnStore.Proofs.Database.Guarding
import ColumnStore.Proofs.Log.Playing

namespace ColumnStore

/-! ## Tables -/

namespace Table

/-- A table with stamps of commits only, none of them after a time. -/
structure Settled (safe : StoredValues → Prop) (last : Stamp) (t : Table) : Prop where
  stamps : ∀ r st, t.stamps? r = some st →
    st.inserted ≤ last ∧ (st.deleted ≤ last ∨ st.deleted = neverDeleted)
  ordered : ∀ i r, Ordered (t.chain i r)
  written : ∀ i r, ∀ v ∈ t.chain i r, v.stamp ≤ last
  fits : t.Fits
  safe : t.Safe safe

variable {safe : StoredValues → Prop} {last time : Stamp} {t t' : Table}

theorem Settled.mono (h : t.Settled safe last) (hle : last ≤ time) : t.Settled safe time where
  stamps r st hst :=
    have ⟨hi, hd⟩ := h.stamps r st hst
    ⟨Nat.le_trans hi hle, hd.imp_left (Nat.le_trans · hle)⟩
  ordered := h.ordered
  written i r v hv := Nat.le_trans (h.written i r v hv) hle
  fits := h.fits
  safe := h.safe

/-- A table without versions, all rows of which are there for everybody. -/
theorem settled_of_committed (hstamps : ∀ r st, t.stamps? r = some st → st = { inserted := 0 })
    (hchain : ∀ i r, t.chain i r = []) (hsafe : t.Safe safe) (last : Stamp) : t.Settled safe last where
  stamps r st hst := by
    obtain rfl := hstamps r st hst
    exact ⟨Nat.zero_le _, Or.inr rfl⟩
  ordered i r := by
    rw [hchain]
    exact List.Pairwise.nil
  written i r v hv := by
    rw [hchain] at hv
    exact absurd hv List.not_mem_nil
  fits i type _ r v hv := by
    rw [hchain] at hv
    exact absurd hv List.not_mem_nil
  safe := hsafe

/-! ## What is replayed -/

/-- **Rows that are added from the log** fit the table. -/
theorem of_appendRows (h : t.Sound) {rows : List Row} {range : Nat × Nat}
    (hok : t.appendRows rows time = (.ok range, t')) :
    Adds t t' time rows ∧ (∀ row ∈ rows, FitsTypes row t.types) ∧ t'.stored = t.stored := by
  have hplain : ∀ type ∈ t.types, type.isNested = false := fun type => plain_of_sound h
  rw [appendRows] at hok
  cases hc : Chunk.ofRows t.types rows with
  | error e =>
    rw [hc] at hok
    cases hok
  | ok c =>
    rw [hc] at hok
    have hfit := Chunk.fits_of_ofRows hplain hc
    obtain ⟨columns, hc', hhold⟩ := Chunk.ofRows_ok hplain hfit
    obtain rfl := Except.ok.inj (hc.symm.trans hc')
    have hrows : HoldRows columns (List.range rows.length) rows :=
      ⟨List.length_range, fun j v hv => Chunk.lists_of_holdRows hhold hv⟩
    exact ⟨append_ok h hrows hok, hfit, stored_append h hrows hok⟩

/-- Rows whose versions are changed are there. -/
theorem lt_of_changeVersions {f : RowVersions → Nat → Option RowVersions} {rows : List Nat}
    (hf : ∀ v row v', f v row = some v' → v'.size = v.size)
    (hok : t.changeVersions f rows = (.ok (), t')) : ∀ r ∈ rows, r < t.rows := by
  induction rows generalizing t with
  | nil => exact fun r hr => absurd hr List.not_mem_nil
  | cons row rest ih =>
    rw [changeVersions] at hok
    split at hok
    · cases hok
    rename_i versions hv
    obtain ⟨⟨⟩, hrow, hv⟩ := bind_eq_ok.mp hv
    have hsize : versions.size = t.rows := by
      unfold present at hv
      split at hv
      · rename_i v hfv
        obtain rfl := Except.ok.inj hv
        exact hf _ _ _ hfv
      · cases hv
    refine List.forall_mem_cons.mpr ⟨?_, fun r hr => ?_⟩
    · unfold checkRow at hrow
      split at hrow
      · assumption
      · cases hrow
    · exact hsize ▸ ih hok r hr

/-- **Deletions from the log** are of rows that are there. -/
theorem of_deleteCommitted (h : t.Sound) {rows : List Nat}
    (hok : t.deleteCommitted rows time = (.ok (), t')) :
    Restamps t t' rows (RowStamps.withDeleted time) := by
  have hrows := lt_of_changeVersions (fun v row v' hv => by
    obtain ⟨-, -, rfl⟩ := Option.map_eq_some_iff.mp hv
    exact RowVersions.size_setDeleted ..) hok
  obtain ⟨u, hu, hr⟩ := deleteCommitted_ok h hrows time
  obtain rfl := (Prod.mk.inj (hok.symm.trans hu)).2
  exact hr

/-- **Updates from the log** fit their column. -/
theorem of_updateCommitted (h : t.Sound) {i : Nat} {rows : List Nat} {values : List Scalar}
    (hok : t.updateCommitted i rows values time = (.ok (), t')) :
    ∃ c, t.columns[i]? = some c ∧ (∀ x ∈ values, x.fits c.type = true) ∧
      Writes t t' i time (rows.zip values) := by
  have hwrite : ∀ (writes : List (Nat × Scalar)) (c c' : Column), c.Sound → c.rows = t.rows →
      changeColumn (fun c x => do t.checkRow x.1; c.update x.1 ⟨time, x.2⟩) c writes =
        (.ok (), c') → ∀ p ∈ writes, p.1 < t.rows ∧ p.2.fits c.type = true := by
    intro writes
    induction writes with
    | nil => exact fun c c' _ _ _ p hp => absurd hp List.not_mem_nil
    | cons p rest ih =>
      intro c c' hs hrows hok
      rw [changeColumn] at hok
      split at hok
      · cases hok
      rename_i c₁ hone
      obtain ⟨⟨⟩, hrow, hone⟩ := bind_eq_ok.mp hone
      have hlt : p.1 < t.rows := by
        unfold checkRow at hrow
        split at hrow
        · assumption
        · cases hrow
      have hfit : p.2.fits c.type = true := by
        by_contra hn
        rw [Column.update, if_pos (by simpa using hn)] at hone
        cases hone
      obtain ⟨c₂, hc₂, hk, -⟩ := Column.update_ok hs (hrows ▸ hlt) (v := ⟨time, p.2⟩) hfit
      obtain rfl := Except.ok.inj (hc₂.symm.trans hone)
      refine List.forall_mem_cons.mpr ⟨⟨hlt, hfit⟩, fun q hq => ?_⟩
      rw [← hk.type_eq]
      exact ih c₂ c' hk.sound (hk.rows_eq.trans hrows) hok q hq
  have hfull := hok
  rw [updateCommitted] at hok
  cases hc : t.columns[i]? with
  | none =>
    rw [column_of_none hc] at hok
    cases hok
  | some c =>
    rw [column_eq_ok.mpr hc] at hok
    dsimp only at hok
    split at hok
    · cases hok
    rename_i hlen
    rw [not_not] at hlen
    obtain ⟨d, -, -, hd⟩ := holds_of_some h hc
    have hall := hwrite (rows.zip values) c _ hd.sound hd.rows_eq
      (Prod.ext (Prod.mk.inj hok).1 rfl)
    have hrows : ∀ r ∈ rows, r < t.rows := fun r hr => by
      rw [← List.map_fst_zip (Nat.le_of_eq hlen)] at hr
      obtain ⟨p, hp, rfl⟩ := List.mem_map.mp hr
      exact (hall p hp).1
    have hfit : ∀ x ∈ values, x.fits c.type = true := fun x hx => by
      rw [← List.map_snd_zip (Nat.le_of_eq hlen.symm)] at hx
      obtain ⟨p, hp, rfl⟩ := List.mem_map.mp hx
      exact (hall p hp).2
    obtain ⟨u, hu, hw⟩ := updateCommitted_ok h hc values hlen hrows hfit time
    obtain rfl := (Prod.mk.inj (hfull.symm.trans hu)).2
    exact ⟨c, rfl, hfit, hw⟩

/-- A table that is as it was but for its rows. -/
structure Continues (t t' : Table) : Prop where
  sound : t'.Sound
  name_eq : t'.name = t.name
  definitions_eq : t'.definitions = t.definitions
  policy_eq : t'.policy = t.policy
  dropped_eq : t'.dropped = t.dropped

theorem Keeps.continues (h : Keeps t t') (hs : t.Sound) : Continues t t' :=
  ⟨h.sound hs, h.name_eq, h.definitions_eq, h.policy_eq, h.dropped_eq⟩

/-- Rows that are replayed leave a settled table. -/
theorem Settled.insertRows (h : t.Settled safe last) (hs : t.Sound) (hle : last ≤ time)
    {rows : List Row} {range : Nat × Nat} (ha : t.appendRows rows time = (.ok range, t')) :
    Continues t t' ∧ t'.Settled safe time := by
  obtain ⟨hadds, -, hstored⟩ := of_appendRows hs ha
  refine ⟨⟨hadds.sound, hadds.name_eq, hadds.definitions_eq, hadds.policy_eq, hadds.dropped_eq⟩,
    fun r st hst => ?_, fun i r => ?_, fun i r v hv => ?_, fun i type htype r v hv => ?_, ?_⟩
  · rcases Nat.lt_or_ge r t.rows with hr | hr
    · rw [hadds.stamps_old hr] at hst
      exact (h.mono hle).stamps r st hst
    · rw [hadds.stamps_new hr] at hst
      split at hst
      · obtain rfl := Option.some.inj hst
        exact ⟨Nat.le_refl _, Or.inr rfl⟩
      · cases hst
  · rw [hadds.chain_eq]
    exact h.ordered i r
  · rw [hadds.chain_eq] at hv
    exact (h.mono hle).written i r v hv
  · rw [types, hadds.definitions_eq, ← types] at htype
    rw [hadds.chain_eq] at hv
    exact h.fits i type htype r v hv
  · rw [Safe, hstored]
    exact h.safe

/-- Deletions that are replayed leave a settled table. -/
theorem Settled.deleteRows (h : t.Settled safe last) (hs : t.Sound) (hle : last ≤ time)
    {rows : List Nat} (hok : t.deleteCommitted rows time = (.ok (), t')) :
    Continues t t' ∧ t'.Settled safe time := by
  have hr := of_deleteCommitted hs hok
  refine ⟨hr.keeps.continues hs, fun r st hst => ?_, fun i r => ?_, fun i r v hv => ?_,
    fun i type htype r v hv => ?_, ?_⟩
  · rw [hr.stamps_eq] at hst
    split at hst
    · obtain ⟨st', hst', rfl⟩ := Option.map_eq_some_iff.mp hst
      exact ⟨((h.mono hle).stamps r st' hst').1, Or.inl (Nat.le_refl _)⟩
    · exact (h.mono hle).stamps r st hst
  · rw [hr.chain_eq]
    exact h.ordered i r
  · rw [hr.chain_eq] at hv
    exact (h.mono hle).written i r v hv
  · rw [hr.keeps.types_eq] at htype
    rw [hr.chain_eq] at hv
    exact h.fits i type htype r v hv
  · rw [Safe, hr.keeps.stored_eq]
    exact h.safe

/-- Values that are replayed leave a settled table. -/
theorem Settled.updateRows (h : t.Settled safe last) (hs : t.Sound) (hle : last ≤ time) {i : Nat}
    {rows : List Nat} {values : List Scalar}
    (hok : t.updateCommitted i rows values time = (.ok (), t')) :
    Continues t t' ∧ t'.Settled safe time := by
  obtain ⟨c, hc, hfit, hw⟩ := of_updateCommitted hs hok
  refine ⟨hw.keeps.continues hs, fun r st hst => ?_, fun j r => ?_, fun j r v hv => ?_,
    fun j type htype r v hv => ?_, ?_⟩
  · rw [hw.stamps_eq] at hst
    exact (h.mono hle).stamps r st hst
  · rw [hw.chain_eq]
    split
    · exact (h.ordered j r).append ((h.mono hle).written j r) _
    · exact h.ordered j r
  · rw [hw.chain_eq] at hv
    split at hv
    · rcases List.mem_append.mp hv with hv | hv
      · exact (h.mono hle).written j r v hv
      · obtain ⟨-, -, rfl⟩ := List.mem_map.mp hv
        exact Nat.le_refl _
    · exact (h.mono hle).written j r v hv
  · rw [hw.keeps.types_eq] at htype
    rw [hw.chain_eq] at hv
    split at hv
    · rename_i hj
      subst hj
      rcases List.mem_append.mp hv with hv | hv
      · exact h.fits j type htype r v hv
      · obtain ⟨x, hx, rfl⟩ := List.mem_map.mp hv
        obtain ⟨d, -, htype', -⟩ := holds_of_some hs hc
        obtain rfl := Option.some.inj (htype'.symm.trans htype)
        exact hfit x (List.of_mem_zip (mem_valuesFor.mp hx)).2
    · exact h.fits j type htype r v hv
  · rw [Safe, hw.keeps.stored_eq]
    exact h.safe

/-- **An entry that is replayed leaves a settled table.** -/
theorem Settled.enact (h : t.Settled safe last) (hs : t.Sound) (hle : last ≤ time) {e : LogEntry}
    (hok : t.enact time e = (.ok (), t')) : Continues t t' ∧ t'.Settled safe time := by
  cases e with
  | insert name rows =>
    rw [Table.enact] at hok
    rcases ha : t.appendRows rows time with ⟨e | range, u⟩
    · rw [ha] at hok
      cases (Prod.mk.inj hok).1
    · rw [ha] at hok
      obtain rfl := (Prod.mk.inj hok).2
      exact h.insertRows hs hle ha
  | delete name rows => exact h.deleteRows hs hle hok
  | update name i rows values => exact h.updateRows hs hle hok
  | createTable | dropTable | checkpoint | commit =>
    obtain rfl := (Prod.mk.inj hok).2
    exact ⟨⟨hs, rfl, rfl, rfl, rfl⟩, h.mono hle⟩

end Table

/-! ## Catalogs -/

namespace Catalog

/-- A catalog of settled tables. -/
structure Settled (policy : SegmentPolicy) (safe : StoredValues → Prop) (last : Stamp)
    (c : Catalog) : Prop where
  sound : c.Sound
  tables : ∀ (id : Nat) (t : Table), c.tables[id]? = some t →
    t.policy = policy ∧ t.Settled safe last

variable {policy : SegmentPolicy} {safe : StoredValues → Prop} {last time : Stamp} {c c' : Catalog}

theorem settled_empty (policy : SegmentPolicy) (safe : StoredValues → Prop) (last : Stamp) :
    ({} : Catalog).Settled policy safe last where
  sound := ⟨fun id t ht => by simp at ht, List.nodup_nil, fun name id hm => absurd hm List.not_mem_nil,
    fun id t ht => by simp at ht⟩
  tables id t ht := by simp at ht

theorem Settled.mono (h : c.Settled policy safe last) (hle : last ≤ time) :
    c.Settled policy safe time :=
  ⟨h.sound, fun id t ht => ⟨(h.tables id t ht).1, (h.tables id t ht).2.mono hle⟩⟩

theorem Settled.insert (h : c.Settled policy safe last) {t : Table} (hs : t.Sound)
    (hwidth : t.definitions.length < UInt64.size) (hdropped : t.dropped = false)
    (hpolicy : t.policy = policy) (ht : t.Settled safe last) {id : TableId}
    (hok : c.insert t = .ok (id, c')) : c'.Settled policy safe last := by
  refine ⟨h.sound.insert hs hwidth hdropped hok, fun j u hu => ?_⟩
  obtain ⟨-, -, rfl⟩ := insert_ok hok
  rw [getElem?_push] at hu
  split at hu
  · obtain rfl := Option.some.inj hu
    exact ⟨hpolicy, ht⟩
  · exact h.tables j u hu

theorem Settled.remove (h : c.Settled policy safe last) {name : String} {id : TableId}
    (hok : c.remove name = .ok (id, c')) : c'.Settled policy safe last := by
  refine ⟨h.sound.remove hok, fun j u hu => ?_⟩
  obtain ⟨hget, rfl⟩ := remove_ok hok
  obtain ⟨t, ht, -, -⟩ := h.sound.named name id (mem_of_get hget)
  dsimp only at hu
  rw [table_of_some ht, tables_setTable ht] at hu
  split at hu
  · obtain rfl := Option.some.inj hu
    obtain ⟨hpolicy, hsettled⟩ := h.tables id t ht
    exact ⟨hpolicy, hsettled.stamps, hsettled.ordered, hsettled.written, hsettled.fits,
      hsettled.safe⟩
  · exact h.tables j u hu

theorem Settled.setTable (h : c.Settled policy safe last) {id : TableId} {t t' : Table}
    (ht : c.tables[id]? = some t) (hc : Table.Continues t t') (ht' : t'.Settled safe last) :
    (c.setTable id t').Settled policy safe last := by
  refine ⟨h.sound.setTable ht hc.sound hc.name_eq hc.definitions_eq hc.dropped_eq, fun j u hu => ?_⟩
  rw [tables_setTable ht] at hu
  split at hu
  · obtain rfl := Option.some.inj hu
    exact ⟨hc.policy_eq.trans (h.tables id t ht).1, ht'⟩
  · exact h.tables j u hu

end Catalog

/-! ## Replay -/

/-- An entry that does not create a table with more columns than can be counted. -/
def LogEntry.Narrow : LogEntry → Prop
  | .createTable _ columns => columns.length < UInt64.size
  | _ => True

namespace Replay

variable {policy : SegmentPolicy} {safe : StoredValues → Prop} {last time : Stamp} {c c' : Catalog}

/-- **An entry that names a table** and is replayed has found it and was enacted on it. -/
theorem of_apply (hc : c.Sound) {e : LogEntry} {name : String} (htarget : e.target? = some name)
    (hok : apply policy time c e = (.ok (), c')) :
    ∃ id t, (name, id) ∈ c.names ∧ c.tables[id]? = some t ∧
      ∃ t', t.enact time e = (.ok (), t') ∧ c' = c.setTable id t' := by
  cases hfind : c.find? name with
  | none =>
    have hget : c.get name = .error (.tableNotFound name) := by rw [Catalog.get, hfind]
    cases e <;> first
      | cases htarget
        rw [apply, apply.onTable, hget] at hok
        cases hok
      | cases htarget
  | some id =>
    have haim : c.aim? e = some id := by rw [Catalog.aim?, htarget, Option.bind_some, hfind]
    have hm : (name, id) ∈ c.names := Catalog.mem_of_get (by rw [Catalog.get, hfind])
    obtain ⟨t, ht, -, -⟩ := hc.named name id hm
    rw [apply_of_aim policy time haim, Catalog.change, Catalog.table_of_some ht] at hok
    rcases hen : t.enact time e with ⟨r, t'⟩
    rw [hen] at hok
    obtain ⟨rfl, rfl⟩ := Prod.mk.inj hok
    exact ⟨id, t, hm, ht, t', hen, rfl⟩

/-- **An entry that is replayed leaves settled tables.** -/
theorem settled_apply (hp : 0 < policy.capacity) (h : c.Settled policy safe last) (hle : last ≤ time)
    {e : LogEntry} (hn : e.Narrow) (hok : apply policy time c e = (.ok (), c')) :
    c'.Settled policy safe time := by
  have htable : ∀ name, e.target? = some name → c'.Settled policy safe time := by
    intro name htarget
    obtain ⟨id, t, -, ht, t', hen, rfl⟩ := of_apply h.sound htarget hok
    obtain ⟨hc, ht'⟩ := (h.tables id t ht).2.enact (h.sound.tables id t ht).1 hle hen
    exact (h.mono hle).setTable ht hc ht'
  cases e with
  | createTable name columns =>
    obtain ⟨t, hnew, hx⟩ := bind_eq_ok.mp (Attempt.ofExcept_eq_ok.mp hok)
    obtain ⟨⟨id, c₁⟩, hinsert, hx⟩ := bind_eq_ok.mp hx
    obtain rfl := (Prod.mk.inj (Except.ok.inj hx)).2
    obtain ⟨hs, -, hdefs, hpolicy, hdropped, hrows, hstored⟩ := Table.new_ok hp hnew
    refine (h.mono hle).insert hs (hdefs ▸ hn) hdropped hpolicy ?_ hinsert
    refine Table.settled_of_committed (fun r st hst => ?_) (fun i r => ?_) (fun v hv => ?_) _
    · rw [Table.stamps?_eq_none.mpr (hrows ▸ Nat.zero_le r)] at hst
      cases hst
    · exact Table.chain_of_le hs (hrows ▸ Nat.zero_le r) i
    · rw [hstored] at hv
      exact absurd hv List.not_mem_nil
  | dropTable name =>
    obtain ⟨⟨id, c₁⟩, hremove, hx⟩ := bind_eq_ok.mp (Attempt.ofExcept_eq_ok.mp hok)
    obtain rfl := (Prod.mk.inj (Except.ok.inj hx)).2
    exact (h.mono hle).remove hremove
  | insert table rows => exact htable table rfl
  | delete table rows => exact htable table rfl
  | update table column rows values => exact htable table rfl
  | checkpoint n | commit n =>
    obtain rfl := (Prod.mk.inj hok).2
    exact h.mono hle

theorem settled_applyGroup (hp : 0 < policy.capacity) {es : List LogEntry} (hle : last ≤ time)
    (h : c.Settled policy safe last) (hn : ∀ e ∈ es, e.Narrow)
    (hok : applyGroup policy time c es = (.ok (), c')) : c'.Settled policy safe time := by
  have h' := h.mono hle
  clear h
  induction es generalizing c with
  | nil =>
    obtain rfl := (Prod.mk.inj hok).2
    exact h'
  | cons e rest ih =>
    obtain ⟨⟨⟩, c₁, hone, hok⟩ := Attempt.andThen_eq_ok.mp hok
    exact ih (fun e he => hn e (List.mem_cons_of_mem _ he)) hok
      (settled_apply hp h' (Nat.le_refl _) (hn e List.mem_cons_self) hone)

end Replay

/-! ## Times -/

/-- The times of the commits among some groups. -/
def LogGroup.times (groups : List LogGroup) : List Stamp :=
  groups.flatMap fun g =>
    match g with
    | .changes _ time => [time]
    | .marker _ => []

/-- **Groups whose times do not go back leave settled tables.** -/
theorem Replay.settled_applyAll {policy : SegmentPolicy} {safe : StoredValues → Prop} {last : Stamp}
    {c c' : Catalog} (hp : 0 < policy.capacity) {groups : List LogGroup}
    (h : c.Settled policy safe 0) (hn : ∀ g ∈ groups, ∀ e ∈ g.entries, e.Narrow)
    (hordered : (LogGroup.times groups).Pairwise (· ≤ ·)) (hle : ∀ t ∈ LogGroup.times groups, t ≤ last)
    (hok : applyAll? policy c groups = some c') : c'.Settled policy safe last := by
  have hall : ∀ (groups : List LogGroup) (first : Stamp) (c : Catalog), first ≤ last →
      c.Settled policy safe first → (∀ g ∈ groups, ∀ e ∈ g.entries, e.Narrow) →
      (LogGroup.times groups).Pairwise (· ≤ ·) →
      (∀ t ∈ LogGroup.times groups, first ≤ t ∧ t ≤ last) → applyAll? policy c groups = some c' →
      c'.Settled policy safe last := by
    intro groups
    induction groups with
    | nil =>
      intro first c hfirst h _ _ _ hok
      obtain rfl := Option.some.inj hok
      exact h.mono hfirst
    | cons g rest ih =>
      intro first c hfirst h hn hordered htimes hok
      obtain ⟨c₁, hone, hmore⟩ := Option.bind_eq_some_iff.mp hok
      have hrest := fun g' hg' => hn g' (List.mem_cons_of_mem _ hg')
      cases g with
      | marker n =>
        obtain rfl := Option.some.inj hone
        exact ih first _ hfirst h hrest hordered htimes hmore
      | changes es time =>
        have htime := htimes time List.mem_cons_self
        obtain ⟨hbehind, hordered⟩ := List.pairwise_cons.mp hordered
        refine ih time c₁ htime.2 ?_ hrest hordered (fun t ht =>
          ⟨hbehind t ht, (htimes t (List.mem_cons_of_mem _ ht)).2⟩) hmore
        rw [applyOne?] at hone
        split at hone
        · rename_i c₂ hc
          obtain rfl := Option.some.inj hone
          exact settled_applyGroup hp htime.1 h
            (fun e he => hn _ List.mem_cons_self e (List.mem_append_left _ he)) hc
        · cases hone
  exact hall groups 0 c (Nat.zero_le _) h hn hordered (fun t ht => ⟨Nat.zero_le _, hle t ht⟩) hok

/-! ## What can be read -/

section Readable

variable {source : Source} {time last : Stamp} {safe : StoredValues → Prop} {policy : SegmentPolicy}

theorem Table.Keeps.readable {t t' : Table} (h : Keeps t t') (hr : t.Readable source) :
    t'.Readable source := by
  intro c hc
  obtain ⟨i, hi, rfl⟩ := List.mem_iff_getElem.mp hc
  obtain ⟨hlen, hall⟩ := List.forall₂_iff_get.mp h.columns
  exact (hall i (hlen ▸ hi) hi).readable (hr _ (List.get_mem _ _))

/-- **Rows that are added** can be read beside the others. -/
theorem Table.Adds.readable {t t' : Table} {data : List Row} (h : Adds t t' time data) (hs : t.Sound)
    (hr : t.Readable source) : t'.Readable source := by
  intro c hc row hrow
  obtain ⟨i, hi, rfl⟩ := List.mem_iff_getElem.mp hc
  have hi' : i < t.columns.length := h.columns.length_eq ▸ hi
  obtain ⟨d, -, -, hd⟩ := holds_of_some h.sound (List.getElem?_eq_getElem hi)
  rw [← under_of_some (List.getElem?_eq_getElem hi)]
  rcases Nat.lt_or_ge row t.rows with hold | hnew
  · obtain ⟨e, -, -, he⟩ := holds_of_some hs (List.getElem?_eq_getElem hi')
    rw [h.under_old source i row hold, under_of_some (List.getElem?_eq_getElem hi')]
    exact hr _ (List.getElem_mem hi') row (he.rows_eq ▸ hold)
  · rw [hd.rows_eq, h.rows_eq] at hrow
    have hk : row - t.rows < (columnOf data i).length := by
      rw [columnOf, List.length_map]
      omega
    have hunder := h.under_new source i _ _ hi' (List.getElem?_eq_getElem hk)
    rw [Nat.add_sub_cancel' hnew] at hunder
    exact ⟨_, hunder⟩

/-- **An entry that is replayed leaves a table that can be read.** -/
theorem Table.Readable.enact {t t' : Table} (hr : t.Readable source) (hs : t.Sound) {e : LogEntry}
    (hok : t.enact time e = (.ok (), t')) : t'.Readable source := by
  cases e with
  | insert name rows =>
    rw [Table.enact] at hok
    rcases ha : t.appendRows rows time with ⟨e | range, u⟩
    · rw [ha] at hok
      cases (Prod.mk.inj hok).1
    · rw [ha] at hok
      obtain rfl := (Prod.mk.inj hok).2
      exact (of_appendRows hs ha).1.readable hs hr
  | delete name rows => exact (of_deleteCommitted hs hok).keeps.readable hr
  | update name i rows values =>
    obtain ⟨c, -, -, hw⟩ := of_updateCommitted hs hok
    exact hw.keeps.readable hr
  | createTable | dropTable | checkpoint | commit =>
    obtain rfl := (Prod.mk.inj hok).2
    exact hr

/-- A table without rows can be read. -/
theorem Table.readable_of_rows {t : Table} (hs : t.Sound) (hrows : t.rows = 0) :
    t.Readable source := by
  intro c hc row hrow
  obtain ⟨i, hi, rfl⟩ := List.mem_iff_getElem.mp hc
  obtain ⟨d, -, -, hd⟩ := holds_of_some hs (List.getElem?_eq_getElem hi)
  rw [hd.rows_eq, hrows] at hrow
  exact absurd hrow (Nat.not_lt_zero _)

/-- A catalog of tables that can be read. -/
def Catalog.Readable (c : Catalog) (source : Source) : Prop :=
  ∀ (id : Nat) (t : Table), c.tables[id]? = some t → t.Readable source

variable {c c' : Catalog}

theorem Replay.readable_apply (hr : c.Readable source) (hc : c.Sound) (hp : 0 < policy.capacity)
    {e : LogEntry} (hok : apply policy time c e = (.ok (), c')) : c'.Readable source := by
  have htable : ∀ name, e.target? = some name → c'.Readable source := by
    intro name htarget j u hu
    obtain ⟨id, t, -, ht, t', hen, rfl⟩ := of_apply hc htarget hok
    rw [Catalog.tables_setTable ht] at hu
    split at hu
    · obtain rfl := Option.some.inj hu
      exact (hr id t ht).enact (hc.tables id t ht).1 hen
    · exact hr j u hu
  cases e with
  | createTable name columns =>
    obtain ⟨t, hnew, hx⟩ := bind_eq_ok.mp (Attempt.ofExcept_eq_ok.mp hok)
    obtain ⟨⟨id, c₁⟩, hinsert, hx⟩ := bind_eq_ok.mp hx
    obtain rfl := (Prod.mk.inj (Except.ok.inj hx)).2
    obtain ⟨hs, -, -, -, -, hrows, -⟩ := Table.new_ok hp hnew
    obtain ⟨-, -, rfl⟩ := Catalog.insert_ok hinsert
    intro j u hu
    rw [Catalog.getElem?_push] at hu
    split at hu
    · obtain rfl := Option.some.inj hu
      exact Table.readable_of_rows hs hrows
    · exact hr j u hu
  | dropTable name =>
    obtain ⟨⟨id, c₁⟩, hremove, hx⟩ := bind_eq_ok.mp (Attempt.ofExcept_eq_ok.mp hok)
    obtain rfl := (Prod.mk.inj (Except.ok.inj hx)).2
    obtain ⟨hget, rfl⟩ := Catalog.remove_ok hremove
    obtain ⟨t, ht, -, -⟩ := hc.named name id (Catalog.mem_of_get hget)
    intro j u hu
    dsimp only at hu
    rw [Catalog.table_of_some ht, Catalog.tables_setTable ht] at hu
    split at hu
    · obtain rfl := Option.some.inj hu
      exact hr id t ht
    · exact hr j u hu
  | insert table rows => exact htable table rfl
  | delete table rows => exact htable table rfl
  | update table column rows values => exact htable table rfl
  | checkpoint n | commit n =>
    obtain rfl := (Prod.mk.inj hok).2
    exact hr

/-- **A group that is replayed leaves tables that can be read.** -/
theorem Replay.readable_applyGroup (hr : c.Readable source) (hc : c.Settled policy safe last)
    (hle : last ≤ time) (hp : 0 < policy.capacity) {es : List LogEntry} (hn : ∀ e ∈ es, e.Narrow)
    (hok : applyGroup policy time c es = (.ok (), c')) : c'.Readable source := by
  have hc' := hc.mono hle
  clear hc
  induction es generalizing c with
  | nil =>
    obtain rfl := (Prod.mk.inj hok).2
    exact hr
  | cons e rest ih =>
    obtain ⟨⟨⟩, c₁, hone, hok⟩ := Attempt.andThen_eq_ok.mp hok
    exact ih (readable_apply hr hc'.sound hp hone) (fun e he => hn e (List.mem_cons_of_mem _ he)) hok
      (settled_apply hp hc' (Nat.le_refl _) (hn e List.mem_cons_self) hone)

end Readable

/-! ## Databases -/

section Idle

variable {safe : StoredValues → Prop} {last : Stamp} {t : Table}

theorem Table.Settled.guarded (h : t.Settled safe last) : t.Guarded last [] where
  ordered i r := by
    rw [committedUpTo_of_le (h.written i r)]
    exact h.ordered i r
  settled r st _ _ i v hv := h.written i r v hv
  held r st _ x hx := absurd hx List.not_mem_nil

theorem Table.Settled.owned (h : t.Settled safe last) {source : Source} (hr : t.Readable source)
    (id : TableId) : TableOwned last source safe [] id t where
  rows r := by
    cases hst : t.stamps? r with
    | none => exact fun x hx => absurd hx List.not_mem_nil
    | some st =>
      obtain ⟨hi, hd⟩ := h.stamps r st hst
      exact ⟨hi, Or.inl ⟨hd, fun x hx => absurd hx List.not_mem_nil⟩⟩
  cells i r := Or.inl ⟨h.written i r, fun x hx => absurd hx List.not_mem_nil⟩
  readable := hr
  safe := h.safe
  fits := h.fits

theorem TableOwned.settled {source : Source} {id : TableId} (h : TableOwned last source safe [] id t)
    (hg : t.Guarded last []) : t.Settled safe last := by
  have hwritten : ∀ i r, ∀ v ∈ t.chain i r, v.stamp ≤ last := by
    intro i r
    rcases h.cells i r with ⟨hs, -⟩ | ⟨x, settled, values, hx⟩
    · exact hs
    · exact absurd hx.mem List.not_mem_nil
  refine ⟨fun r st hst => ?_, fun i r => ?_, hwritten, h.fits, h.safe⟩
  · have hrow := h.rows r
    rw [hst] at hrow
    obtain ⟨hi, ⟨hd, -⟩ | ⟨x, hx, -⟩⟩ := hrow
    · exact ⟨hi, hd⟩
    · exact absurd hx List.not_mem_nil
  · rw [← committedUpTo_of_le (hwritten i r)]
    exact hg.ordered i r

/-- A database with settled tables and no transaction. -/
structure Database.Idle (db : Database) : Prop where
  catalog : db.catalog.Settled db.policy db.SafeFile db.lastCommit
  last_lt : db.lastCommit < firstTransaction
  next_ge : firstTransaction ≤ db.nextTransaction
  next_le : db.nextTransaction ≤ neverDeleted
  active : db.active = []
  kept : db.decoded.Kept db.disk db.SafeFile

/-- The blocks of all tables can be read. -/
def Database.Readable (db : Database) : Prop :=
  ∀ (id : Nat) (t : Table), db.catalog.tables[id]? = some t → t.Readable db.disk.source

/-- **Settled tables that can be read make a sound database.** -/
theorem Database.Idle.sound {db : Database} (h : db.Idle) (hr : db.Readable) : db.Sound [] where
  catalog := h.catalog.sound
  last_lt := h.last_lt
  next_ge := h.next_ge
  next_le := h.next_le
  distinct := List.nodup_nil
  ids x hx := absurd hx List.not_mem_nil
  listed id := by rw [h.active, List.map_nil]
  recorded x hx := absurd hx List.not_mem_nil
  owned id t ht := (h.catalog.tables id t ht).2.owned (hr id t ht) id
  kept := h.kept

theorem Database.Sound.idle {db : Database} (h : db.Sound [])
    (hg : ∀ (id : Nat) (t : Table), db.catalog.tables[id]? = some t → t.Guarded db.lastCommit [])
    (hp : ∀ (id : Nat) (t : Table), db.catalog.tables[id]? = some t → t.policy = db.policy) :
    db.Idle where
  catalog := ⟨h.catalog, fun id t ht => ⟨hp id t ht, (h.owned id t ht).settled (hg id t ht)⟩⟩
  last_lt := h.last_lt
  next_ge := h.next_ge
  next_le := h.next_le
  active := List.eq_nil_iff_forall_not_mem.mpr fun id hid =>
    absurd ((h.listed id).mp hid) List.not_mem_nil
  kept := h.kept

end Idle

end ColumnStore
