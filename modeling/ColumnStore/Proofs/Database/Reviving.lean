/-
# What a process leaves when it dies

A process that dies leaves a directory whose log may end within a group (`Fallen`).  A group that was
being written when it died is a chapter of what has happened if its commit reached the log, and else it
is none (`Remembers.group`).  In either case the directory can be opened, with what the chapters tell
(`Fallen.reopen`).
-/

import ColumnStore.Proofs.Database.Installing

namespace ColumnStore

/-! ## Logs that are cut off -/

namespace Log

/-- A log that is cut off on another disk. -/
structure Torn (d d' : Disk) (file : FileId) (gs : List (LogGroup × Nat)) (k : Nat) : Prop where
  holds : ∃ es, Holds d (path Database.logDirectory) file es ∧ Groups es gs
  same : Disk.SameBut file d d'
  bytes : d'.bytes file = (d.bytes file).take k
  le : k ≤ (d.bytes file).length

variable {w : LogWriter} {d d' : Disk} {gs : List (LogGroup × Nat)}

theorem Open.stop_le (h : Open w d gs) : ∀ g ∈ gs, g.2 ≤ w.length := by
  obtain ⟨es, hes, hg⟩ := h.holds
  exact h.length_eq ▸ hes.stop_le hg

/-- All groups end within a length that the log does not exceed. -/
theorem Open.within_eq (h : Open w d gs) {k : Nat} (hk : w.length ≤ k) : within k gs = gs :=
  List.filter_eq_self.mpr fun g hg => decide_eq_true (Nat.le_trans (h.stop_le g hg) hk)

theorem Open.chapters (h : Open w d gs) : d.chapters = gs.filterMap (·.1.chapter?) := by
  obtain ⟨es, hes, hg⟩ := h.holds
  exact Disk.chapters_of_holds hes hg

/-- **A log that is left as it is** is cut off at its end. -/
theorem Open.torn_self (h : Open w d gs) : Torn d d w.file gs w.length :=
  ⟨h.holds, .refl _ d, h.length_eq ▸ List.take_length.symm, Nat.le_of_eq h.length_eq⟩

/-- **A log that is cut off** has the groups that end in front of the cut. -/
theorem Open.torn (h : Open w d gs) (k : Nat) :
    ∃ k', Torn d (d.cutLog k) w.file gs k' ∧ within k' gs = within k gs := by
  obtain ⟨es, hes, hg⟩ := h.holds
  obtain ⟨hsame, hbytes⟩ := Database.sameBut_cutLog hes.find hes.inside k
  exact ⟨min k (d.bytes w.file).length, ⟨⟨es, hes, hg⟩, hsame,
    hbytes.trans List.take_eq_take_min, Nat.min_le_right ..⟩, within_min (hes.stop_le hg) k⟩

/-- **A log whose last group is cut** has that group or does not. -/
theorem Open.torn_last (h : Open w d gs) {w' : LogWriter} {g : LogGroup × Nat}
    (h' : Open w' d' (gs ++ [g])) {k : Nat} (hk : w.length ≤ k) :
    ∃ k', Torn d' (d'.cutLog k) w'.file (gs ++ [g]) k' ∧
      (within k' (gs ++ [g]) = gs ∨ within k' (gs ++ [g]) = gs ++ [g]) := by
  obtain ⟨k', htorn, hwithin⟩ := h'.torn k
  refine ⟨k', htorn, ?_⟩
  rw [hwithin, within, List.filter_append, show gs.filter (·.2 ≤ k) = gs from h.within_eq hk]
  by_cases hstop : g.2 ≤ k
  · exact Or.inr (congrArg _ (List.filter_cons_of_pos (decide_eq_true hstop)))
  · rw [List.filter_cons_of_neg (by simpa using hstop)]
    exact Or.inl (List.append_nil _)

theorem Torn.chapters {file : FileId} {k : Nat} (h : Torn d d' file gs k) :
    d'.chapters = (within k gs).filterMap (·.1.chapter?) := by
  obtain ⟨es, hes, hg⟩ := h.holds
  exact Disk.chapters_of_cut hes hg h.same h.bytes h.le

end Log

/-! ## Directories -/

/-- A directory whose log is open recalls what has happened to the tables. -/
def Remembers (policy : SegmentPolicy) (w : LogWriter) (d : Disk) (n : Nat) (cs : List Chapter)
    (m : Catalog) : Prop :=
  ∃ gs, Log.Open w d gs ∧ Recalls policy w.file d n gs cs m

/-- A directory as a process leaves it when it dies: the log may be cut off behind the groups of which
chapters tell. -/
def Fallen (policy : SegmentPolicy) (cs : List Chapter) (d : Disk) : Prop :=
  ∃ d₀ file gs k n m, Log.Torn d₀ d file gs k ∧ Recalls policy file d₀ n (Log.within k gs) cs m

/-- A database of which chapters tell, and so does its directory. -/
structure Database.Chronicled (policy : SegmentPolicy) (cs : List Chapter) (db : Database) : Prop where
  policy_eq : db.policy = policy
  last_eq : db.lastCommit = Chapter.last cs
  remembers : ∃ m, Remembers policy db.log db.disk db.iteration cs m ∧
    db.catalog.Mirrors db.lastCommit m

namespace Remembers

variable {policy : SegmentPolicy} {w : LogWriter} {d d' : Disk} {n : Nat} {cs : List Chapter}
  {m m' : Catalog}

/-- **A process that dies between two steps** leaves what there is. -/
theorem fallen (h : Remembers policy w d n cs m) : Fallen policy cs d := by
  obtain ⟨gs, hopen, hr⟩ := h
  exact ⟨d, w.file, gs, w.length, n, m, hopen.torn_self, by rwa [hopen.within_eq (Nat.le_refl _)]⟩

/-- **Files of other checkpoints** may be written and deleted. -/
theorem spares (h : Remembers policy w d n cs m) {names : List String}
    (hs : ∀ file, Checkpoint.Spares names file d d') (hkeeps : d.KeepsNames d')
    (hnames : ∀ name ∈ names, ∃ k, Checkpoint.iterationOf? name = some k ∧ k ≠ n) :
    Remembers policy w d' n cs m := by
  obtain ⟨gs, hopen, hr⟩ := h
  refine ⟨gs, hopen.spares (hs (w.file + 1)) (Nat.ne_of_lt (Nat.lt_succ_self _)) fun hm => ?_,
    hr.spares (hs _) hkeeps hnames⟩
  obtain ⟨k, hk, -⟩ := hnames _ hm
  rw [(by decide +kernel : Checkpoint.iterationOf? Database.logDirectory = none)] at hk
  cases hk

/-- **A group that is added to the log** is a chapter more, also if the process dies and leaves the
commit of the group in the log; and if it does not, there is no chapter more. -/
theorem group (h : Remembers policy w d n cs m) (hp : 0 < policy.capacity) {es : List LogEntry}
    (hc : ∀ e ∈ es, e.IsChange) (hw : ∀ e ∈ es, e.Wordy) (ht : Chapter.last cs + 1 < firstTransaction)
    {b : Bytes} (hb : Frame.encodeAll (es ++ [.commit (Chapter.last cs + 1)]) = .ok b)
    (hok : Replay.applyGroup policy (Chapter.last cs + 1) m es = (.ok (), m')) :
    (d.writeAt w.file w.length b).chapters = d.chapters ++ [.group es (Chapter.last cs + 1)] ∧
      Remembers policy { w with length := w.length + b.length } (d.writeAt w.file w.length b) n
        (cs ++ [.group es (Chapter.last cs + 1)]) m' ∧
      ∀ k, w.length ≤ k → ∃ more,
        ((d.writeAt w.file w.length b).cutLog k).chapters = d.chapters ++ more ∧
        Fallen policy (cs ++ more) ((d.writeAt w.file w.length b).cutLog k) ∧
        Chapter.last (cs ++ more) ≤ Chapter.last cs + 1 := by
  obtain ⟨gs, hopen, hr⟩ := h
  have hwordy : ∀ e ∈ es ++ [.commit (Chapter.last cs + 1)], e.Wordy := by
    intro e he
    rcases List.mem_append.mp he with he | he
    · exact hw e he
    · rw [List.mem_singleton.mp he]
      exact Nat.lt_trans ht (by decide)
  obtain ⟨stop, hopen'⟩ := hopen.append (g := .changes es (Chapter.last cs + 1)) hc hwordy hb
  have hr₁ := hr.sameBut (.writeAt w.file d w.length b)
  have hnarrow : ∀ e ∈ es, e.Narrow := by
    obtain ⟨es', hes', hg'⟩ := hopen'.holds
    exact fun e he => hg'.narrow hes'.narrow (LogGroup.changes es (Chapter.last cs + 1)) (by simp) e
      (List.mem_append_left _ he)
  have hr₂ := hr₁.group hp hnarrow ht hok stop
  have hchapters : (gs ++ [(LogGroup.changes es (Chapter.last cs + 1), stop)]).filterMap
      (·.1.chapter?) = d.chapters ++ [.group es (Chapter.last cs + 1)] := by
    rw [hopen.chapters, List.filterMap_append]
    rfl
  refine ⟨hopen'.chapters.trans hchapters, ⟨_, hopen', hr₂⟩, fun k hk => ?_⟩
  obtain ⟨k', htorn, hwithin | hwithin⟩ := hopen.torn_last hopen' hk
  · refine ⟨[], ?_, ⟨_, _, _, k', n, m, htorn, ?_⟩, ?_⟩
    · rw [htorn.chapters, hwithin, hopen.chapters, List.append_nil]
    · rw [hwithin, List.append_nil]
      exact hr₁
    · rw [List.append_nil]
      exact Nat.le_succ _
  · refine ⟨[.group es (Chapter.last cs + 1)], ?_, ⟨_, _, _, k', n, m', htorn, ?_⟩,
      Nat.le_of_eq (Chapter.last_group cs es)⟩
    · rw [htorn.chapters, hwithin, hchapters]
    · rw [hwithin]
      exact hr₂

end Remembers

/-! ## Opening again -/

/-- **What a process leaves when it dies can be opened again,** with what the chapters tell. -/
theorem Fallen.reopen {policy : SegmentPolicy} {cs : List Chapter} {d : Disk}
    (h : Fallen policy cs d) {settings : Settings} (hp : settings.segmentPolicy = .ok policy)
    (hlast : Chapter.last cs < firstTransaction) :
    ∃ db, Database.openDirectory d settings = (.ok db, db.disk) ∧ db.Idle ∧ db.Readable ∧
      db.Durable ∧ db.nextTransaction = firstTransaction ∧ db.Chronicled policy cs ∧
      (Ledger.of cs).Listed db := by
  obtain ⟨d₀, file, gs, k, n, m, htorn, hr⟩ := h
  obtain ⟨es, hes, hgroups⟩ := htorn.holds
  obtain ⟨c, time, hanchors, hload, happly, hmax⟩ := hr.base
  obtain ⟨kept, markers, db, hkept, hmarkers, hdb, hsame⟩ :=
    Database.openDirectory_torn hp hload hes hgroups happly htorn.same htorn.bytes htorn.le
  obtain ⟨hopened, rfl, rfl, rfl, hlastEq, ⟨hactive, hdecoded, hnext⟩, hopen⟩ := hdb
  rw [hmax] at hlastEq
  have hfile : db.log.file = file := by
    obtain ⟨es', hes', -⟩ := hopen.holds
    exact Except.ok.inj (hes'.find.symm.trans ((hsame.find_eq _).trans hes.find))
  subst hfile
  rw [hkept] at hr
  have hr := (Recalls.unmarked hmarkers).mp (hr.sameBut hsame)
  have hidle : db.Idle := {
    catalog := hlastEq ▸ hr.settled
    last_lt := hlastEq ▸ hlast
    next_ge := Nat.le_of_eq hnext.symm
    next_le := hnext ▸ (by decide : firstTransaction ≤ neverDeleted)
    active := hactive
    kept := hdecoded ▸ Decoded.kept_nil _ _ }
  obtain ⟨-, time', hanchors', -, -, hmax'⟩ := hr.base
  refine ⟨db, hopened, hidle, hr.readable, ⟨hr.whole, hr.draft, ⟨kept, hopen, ?_⟩, ?_⟩, hnext,
    ⟨rfl, hlastEq, db.catalog, ⟨kept, hopen, hr⟩, ?_⟩, ?_⟩
  · exact hlastEq ▸ hr.timely
  · exact hanchors'.mono (by rw [hlastEq, ← hmax']; exact Nat.le_max_left _ _)
  · exact hidle.catalog.mirrors_self (Nat.lt_trans hidle.last_lt (by decide))
  · refine Ledger.Tells.listed ?_ (hidle.sound hr.readable)
    rw [Database.source, hdecoded]
    exact hr.told

namespace Database

variable {policy : SegmentPolicy} {cs : List Chapter} {db db' : Database}

/-- **A step that is recorded in the log** is one of which the chapters in the log tell, also if the
process dies while the log is written. -/
theorem Recorded.chronicled (h : db.Recorded db') (hc : db.Chronicled policy cs)
    (hp : 0 < policy.capacity) :
    (∃ more, db'.disk.chapters = db.disk.chapters ++ more ∧ db'.Chronicled policy (cs ++ more)) ∧
      ∀ k, db.log.length ≤ k → ∃ more,
        (db'.disk.cutLog k).chapters = db.disk.chapters ++ more ∧
        Fallen policy (cs ++ more) (db'.disk.cutLog k) ∧
        Chapter.last (cs ++ more) ≤ Chapter.last cs + 1 := by
  obtain ⟨hpolicy, hlast, m, hremembers, hmirrors⟩ := hc
  cases h with
  | nothing hdisk hlog hiteration hpolicy' hlast' hm =>
    refine ⟨⟨[], ?_, hpolicy'.trans hpolicy, ?_, m, ?_, ?_⟩, fun k hk => ⟨[], ?_⟩⟩
    · rw [hdisk, List.append_nil]
    · rw [hlast', hlast, List.append_nil]
    · rw [hlog, hdisk, hiteration, List.append_nil]
      exact hremembers
    · rw [hlast']
      exact hm m hmirrors
    · rw [hdisk, List.append_nil, List.append_nil]
      obtain ⟨gs, hopen, hr⟩ := hremembers
      obtain ⟨k', htorn, hwithin⟩ := hopen.torn k
      rw [hopen.within_eq hk] at hwithin
      refine ⟨?_, ⟨_, _, _, k', _, m, htorn, hwithin ▸ hr⟩, Nat.le_succ _⟩
      rw [htorn.chapters, hwithin, hopen.chapters]
  | group es b hchanges hw hlt hb hdisk hlog hiteration hpolicy' hlast' hm =>
    obtain ⟨m', happly, hmirrors'⟩ := hm m hmirrors
    rw [hlast] at hlt hb happly hmirrors' hlast'
    rw [hpolicy] at happly
    obtain ⟨hchapters, hremembers', hcut⟩ := hremembers.group hp hchanges hw hlt hb happly
    rw [hdisk]
    refine ⟨⟨_, hchapters, hpolicy'.trans hpolicy, ?_, m', ?_, hlast' ▸ hmirrors'⟩, hcut⟩
    · rw [hlast', Chapter.last_group]
    · rw [hlog, hdisk, hiteration]
      exact hremembers'

end Database
end ColumnStore
