/-
# What a directory recalls

A directory recalls what has happened to the tables when the groups in its log, replayed on top of the
checkpoint that is installed, give what the chapters tell (`Recalls`).  It does so whatever else is
written to it (`Recalls.moves`), with a chapter more when a group is added to the log
(`Recalls.group`), and without regard to markers of checkpoints that are not installed
(`Recalls.unmarked`).
-/

import ColumnStore.Proofs.Database.Chronicle
import ColumnStore.Proofs.Database.Durability
import ColumnStore.Proofs.Database.Naming

namespace ColumnStore

/-! ## Markers -/

namespace LogGroup

theorem last_of_markers {groups : List LogGroup} (h : ∀ g ∈ groups, g.isMarker = true) :
    last groups = 0 := by
  induction groups with
  | nil => rfl
  | cons g rest ih =>
    rw [last_cons, ih fun g hg => h g (List.mem_cons_of_mem _ hg)]
    have hg := h g List.mem_cons_self
    cases g with
    | marker n => rfl
    | changes es time => cases hg

theorem times_of_markers {groups : List LogGroup} (h : ∀ g ∈ groups, g.isMarker = true) :
    times groups = [] := by
  refine List.flatMap_eq_nil_iff.mpr fun g hg => ?_
  have hmarker := h g hg
  cases g with
  | marker n => rfl
  | changes es time => cases hmarker

end LogGroup

/-! ## Directories -/

/-- A disk from whose checkpoint and log tables are made as chapters tell: the groups in the log
behind the checkpoint with a number give a catalog of them.  A checkpoint may be written on it. -/
structure Recalls (policy : SegmentPolicy) (log : FileId) (d : Disk) (n : Nat)
    (gs : List (LogGroup × Nat)) (cs : List Chapter) (m : Catalog) : Prop where
  whole : d.Whole
  draft : Checkpoint.Draftable d
  name : d.entry? ["wal", "strata.wal"] = some (.file log)
  base : ∃ c time, Checkpoint.Anchors d log n time ∧
    Database.loadCheckpoint d policy = .ok (c, n, time) ∧
    Replay.applyAll? policy c ((Log.behind n gs).map (·.1)) = some m ∧
    max time (LogGroup.last ((Log.behind n gs).map (·.1))) = Chapter.last cs
  timely : Log.Timely n (Chapter.last cs) gs
  settled : m.Settled policy (fun v => v.blocks.file ≠ log) (Chapter.last cs)
  regular : m.Regular
  readable : m.Readable d.source
  told : (Ledger.of cs).Tells d.source m

namespace Recalls

variable {policy : SegmentPolicy} {log : FileId} {d d' : Disk} {n : Nat}
  {gs : List (LogGroup × Nat)} {cs : List Chapter} {m : Catalog}

/-- **What is recalled stays** while the log keeps its name, what is installed stays, and what could
be read can still be read. -/
theorem moves (h : Recalls policy log d n gs cs m) (hs : Checkpoint.SameInstalled d d' log n)
    (hk : d.source.Keeps (fun v => v.blocks.file ≠ log) d'.source) (hw : d'.Whole)
    (hd : Checkpoint.Draftable d')
    (hname : d'.entry? ["wal", "strata.wal"] = d.entry? ["wal", "strata.wal"]) :
    Recalls policy log d' n gs cs m where
  whole := hw
  draft := hd
  name := hname.trans h.name
  base := by
    obtain ⟨c, time, hanchors, hload, hrest⟩ := h.base
    exact ⟨c, time, hanchors.of_same hs, hanchors.loadCheckpoint_same hs hload, hrest⟩
  timely := h.timely
  settled := h.settled
  regular := h.regular
  readable := h.readable.keeps h.settled.tables_safe hk
  told := h.told.keeps h.settled.tables_safe hk

/-- **Whatever is written to the log,** the checkpoint stays what it is. -/
theorem sameBut (h : Recalls policy log d n gs cs m) (hd : Disk.SameBut log d d') :
    Recalls policy log d' n gs cs m := by
  have hentry := Disk.sameExcept_of_entries hd.entries_eq []
  have hgrows : d.Grows log d' := .sameBut hd
  exact h.moves (.of_grows h.whole (hentry _ List.not_mem_nil) (fun _ => hentry _ List.not_mem_nil)
    hgrows) (hgrows.keeps fun _ => id) (h.whole.sameBut hd)
    (h.draft.grows h.whole (.of_entries hd.entries_eq) (hentry _ List.not_mem_nil) h.name (by decide)
      hgrows) (hentry _ List.not_mem_nil)

/-- **Files of other checkpoints** may be written and deleted. -/
theorem spares (h : Recalls policy log d n gs cs m) {names : List String}
    (hs : Checkpoint.Spares names log d d') (hkeeps : d.KeepsNames d')
    (hnames : ∀ name ∈ names, ∃ k, Checkpoint.iterationOf? name = some k ∧ k ≠ n) :
    Recalls policy log d' n gs cs m := by
  have hentry : ∀ name, (∀ k, Checkpoint.iterationOf? name = some k → k = n) →
      d'.entry? [name] = d.entry? [name] := by
    intro name hname
    refine hs.entries _ fun hm => ?_
    obtain ⟨other, hother, heq⟩ := List.mem_map.mp hm
    obtain ⟨k, hk, hne⟩ := hnames other hother
    exact hne (hname k ((List.cons.inj heq).1 ▸ hk))
  have hother : ∀ name, Checkpoint.iterationOf? name = none → d'.entry? [name] = d.entry? [name] :=
    fun name hnone => hentry name fun k hk => by simp [hnone] at hk
  have hlog : d'.entry? ["wal", "strata.wal"] = d.entry? ["wal", "strata.wal"] :=
    hs.entries _ fun hm => by
      obtain ⟨name, -, heq⟩ := List.mem_map.mp hm
      cases (List.cons.inj heq).2
  refine h.moves (.of_grows h.whole (hother _ (by decide +kernel)) (fun hn => hentry _ fun k hk => ?_)
    hs.grows) (hs.grows.keeps fun _ => id) hs.whole
    (h.draft.grows h.whole hkeeps (hother _ (by decide +kernel)) h.name (by decide) hs.grows) hlog
  rw [Checkpoint.iterationOf?_fileName hn] at hk
  exact (Option.some.inj hk).symm

/-- **A draft of a manifest** does not matter. -/
theorem drafted (h : Recalls policy log d n gs cs m) {file : FileId}
    (hs : Checkpoint.Spares [Manifest.draftPath] file d d')
    (hold : d.entry? [Manifest.draftPath] = some (.file file) ∨ file = d.contents.size)
    (hentry : d'.entry? [Manifest.draftPath] = some (.file file))
    (hshort : (d'.bytes file).length < BlockFile.headerArea) :
    Recalls policy log d' n gs cs m := by
  obtain ⟨hbefore, halone⟩ := h.draft.target h.whole hold
  have hother : ∀ p, p ≠ [Manifest.draftPath] → d'.entry? p = d.entry? p := fun p hp =>
    hs.entries p (by simpa using hp)
  refine h.moves ⟨hother _ (by decide), fun hn => hother _ fun heq => ?_, fun name g hname hg hlog => ?_⟩
    (hs.grows.keeps_short hbefore _) hs.whole ⟨?_, fun g hg => ?_⟩ (hother _ (by decide))
  · obtain ⟨-, -, -, -, hne, -⟩ :=
      Checkpoint.name_of_iterationOf? (Checkpoint.iterationOf?_fileName hn)
    exact hne (List.cons.inj heq).1
  · exact hs.grows.bytes_eq g (h.whole _ _ hg) (halone _ g (by simpa using hname) hg)
  · rw [Disk.isDirectory, hentry]
    rfl
  · obtain rfl := DiskEntry.file.inj (Option.some.inj (hg.symm.trans hentry))
    refine ⟨fun p hp => ?_, hshort⟩
    by_contra hne
    exact halone p g hne (hother p hne ▸ hp) rfl

/-! ## Groups -/

/-- Only what the groups behind the checkpoint make of the tables matters, and their times. -/
theorem congr (h : Recalls policy log d n gs cs m) {gs' : List (LogGroup × Nat)}
    (happly : ∀ c, Replay.applyAll? policy c ((Log.behind n gs').map (·.1)) =
      Replay.applyAll? policy c ((Log.behind n gs).map (·.1)))
    (hlast : LogGroup.last ((Log.behind n gs').map (·.1)) =
      LogGroup.last ((Log.behind n gs).map (·.1)))
    (htimes : LogGroup.times ((Log.behind n gs').map (·.1)) =
      LogGroup.times ((Log.behind n gs).map (·.1))) : Recalls policy log d n gs' cs m where
  whole := h.whole
  draft := h.draft
  name := h.name
  base := by
    obtain ⟨c, time, hanchors, hload, hrest⟩ := h.base
    exact ⟨c, time, hanchors, hload, by rwa [happly, hlast]⟩
  timely := by
    refine ⟨?_, ?_⟩ <;> rw [htimes]
    · exact h.timely.ordered
    · exact h.timely.le_last
  settled := h.settled
  regular := h.regular
  readable := h.readable
  told := h.told

/-- **A group that is added** is a chapter more. -/
theorem group (h : Recalls policy log d n gs cs m) (hp : 0 < policy.capacity) {es : List LogEntry}
    (hn : ∀ e ∈ es, e.Narrow) (ht : Chapter.last cs + 1 < firstTransaction) {m' : Catalog}
    (hok : Replay.applyGroup policy (Chapter.last cs + 1) m es = (.ok (), m')) (stop : Nat) :
    Recalls policy log d n (gs ++ [(.changes es (Chapter.last cs + 1), stop)])
      (cs ++ [.group es (Chapter.last cs + 1)]) m' := by
  have hlast := Chapter.last_group cs es
  have hbehind : Log.behind n (gs ++ [(.changes es (Chapter.last cs + 1), stop)]) =
      Log.behind n gs ++ [(.changes es (Chapter.last cs + 1), stop)] :=
    Log.behind_append (fun g hg => by rw [List.mem_singleton.mp hg]; rfl) gs
  refine ⟨h.whole, h.draft, h.name, ?_, ?_, ?_,
    Replay.regular_applyGroup h.regular hp h.settled (Nat.le_succ _) hn hok,
    Replay.readable_applyGroup h.readable h.settled (Nat.le_succ _) hp hn hok, ?_⟩
  · obtain ⟨c, time, hanchors, hload, happly, hmax⟩ := h.base
    refine ⟨c, time, hanchors, hload, ?_, ?_⟩
    · rw [hbehind, List.map_append, List.map_singleton, Replay.applyAll?_concat happly,
        Replay.applyOne?, hok]
    · rw [hbehind, List.map_append, LogGroup.last_append, ← Nat.max_assoc, hmax, hlast]
      exact Nat.max_eq_right (Nat.le_trans (Nat.le_succ _) (Nat.le_max_left _ _))
  · rw [hlast]
    exact h.timely.concat es stop
  · rw [hlast]
    exact Replay.settled_applyGroup hp (Nat.le_succ _) h.settled hn hok
  · rw [Ledger.of_append]
    exact h.told.applyGroup (h.settled.mono (Nat.le_succ _)) hp ht hn hok

/-- **Markers of checkpoints that are not installed** do not matter. -/
theorem unmarked {markers : List (LogGroup × Nat)}
    (hm : ∀ g ∈ markers, g.1.isMarker = true ∧ g.1.isCovered n = false) :
    Recalls policy log d n (gs ++ markers) cs m ↔ Recalls policy log d n gs cs m := by
  have hbehind : Log.behind n (gs ++ markers) = Log.behind n gs ++ markers :=
    Log.behind_append (fun g hg => (hm g hg).2) gs
  have hmarkers : ∀ g ∈ markers.map (·.1), g.isMarker = true := by
    intro g hg
    obtain ⟨p, hp, rfl⟩ := List.mem_map.mp hg
    exact (hm p hp).1
  have happly : ∀ c, Replay.applyAll? policy c ((Log.behind n (gs ++ markers)).map (·.1)) =
      Replay.applyAll? policy c ((Log.behind n gs).map (·.1)) := by
    intro c
    rw [hbehind, List.map_append, Replay.applyAll?_append]
    refine (Option.bind_congr fun c' _ => ?_).trans (Option.bind_fun_some _)
    exact Replay.applyAll?_markers hmarkers c'
  have hlast : LogGroup.last ((Log.behind n (gs ++ markers)).map (·.1)) =
      LogGroup.last ((Log.behind n gs).map (·.1)) := by
    rw [hbehind, List.map_append, LogGroup.last_append, LogGroup.last_of_markers hmarkers]
    exact Nat.max_eq_left (Nat.zero_le _)
  have htimes : LogGroup.times ((Log.behind n (gs ++ markers)).map (·.1)) =
      LogGroup.times ((Log.behind n gs).map (·.1)) := by
    rw [hbehind, List.map_append, LogGroup.times_append, LogGroup.times_of_markers hmarkers,
      List.append_nil]
  exact ⟨fun h => h.congr (fun c => (happly c).symm) hlast.symm htimes.symm,
    fun h => h.congr happly hlast htimes⟩

end Recalls
end ColumnStore
