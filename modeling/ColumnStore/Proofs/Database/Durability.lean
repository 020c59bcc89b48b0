/-
# The steps of a checkpoint on the disk

A checkpoint writes a file, adds a marker to the log, installs a manifest, empties the log and deletes
files.  After each of these steps the directory can be opened again (`Database.Durable.spares`,
`Database.Durable.marker`, `Database.Durable.emptyLog`, `Database.Durable.deleteAll`).
-/

import ColumnStore.Proofs.Checkpoint.Adopting
import ColumnStore.Proofs.Database.Steady

namespace ColumnStore

/-! ## The log -/

namespace Log

variable {w : LogWriter} {d d' : Disk} {gs : List (LogGroup × Nat)}

/-- **A log stays open** while other files change. -/
theorem Open.spares (h : Open w d gs) {names : List String} {file : FileId}
    (hs : Checkpoint.Spares names file d d') (hne : w.file ≠ file)
    (hnames : Database.logDirectory ∉ names) : Open w d' gs := by
  obtain ⟨es, hes, hgs⟩ := h.holds
  have hbytes := hs.grows.bytes_eq _ hes.inside hne
  have hfind := hs.entries.find_log (fun hm => by
    obtain ⟨name, hname, heq⟩ := List.mem_map.mp hm
    obtain rfl : name = "wal" := (List.cons.inj heq).1
    exact hnames hname) (fun hm => by
    obtain ⟨name, -, heq⟩ := List.mem_map.mp hm
    cases (List.cons.inj heq).2) hes.find
  refine ⟨⟨es, ⟨hfind, Nat.lt_of_lt_of_le hes.inside hs.grows.size_le, ?_⟩, hgs⟩, ?_⟩
  · rw [hbytes]
    exact hes.bytes
  · rw [hbytes]
    exact h.length_eq

/-- **A log that is emptied** is open without any group. -/
theorem Open.truncate (h : Open w d gs) : Open (w.truncate d).1 (w.truncate d).2 [] := by
  obtain ⟨es, hes, -⟩ := h.holds
  obtain ⟨header, body, hbytes, hheader, -⟩ := hes.bytes
  have hlen : FileHeader.length ≤ (d.bytes w.file).length := by
    rw [hbytes, List.length_append, hheader.1]
    exact Nat.le_add_right _ _
  have hcut : (d.setLength w.file FileHeader.length).bytes w.file = header ++ [] := by
    rw [Disk.bytes_setLength hes.inside hlen, hbytes, List.append_nil]
    exact List.take_left' hheader.1
  refine ⟨⟨[], hes.rewrite (.setLength ..) hcut hheader (.nil _), .nil⟩, ?_⟩
  change FileHeader.length = _
  rw [LogWriter.truncate, hcut, List.append_nil, hheader.1]

/-- **A marker that is written** comes behind the groups. -/
theorem Open.marker (h : Open w d gs) {n : Nat} (hn : n < UInt64.size) {w' : LogWriter}
    (hok : w.append d [.checkpoint n] = .ok (w', d')) :
    w'.file = w.file ∧ Disk.SameBut w.file d d' ∧
      ∃ stop, Open w' d' (gs ++ [(.marker n, stop)]) := by
  rw [LogWriter.append] at hok
  split at hok
  · cases hok
  obtain ⟨b, hb, hok⟩ := bind_eq_ok.mp hok
  obtain ⟨rfl, rfl⟩ := Prod.mk.inj (Except.ok.inj hok)
  refine ⟨rfl, .writeAt .., h.append (g := .marker n) trivial (fun e he => ?_) hb⟩
  rw [List.mem_singleton.mp he]
  exact hn

end Log

namespace Log.Timely

variable {iteration : Nat} {last : Stamp} {gs : List (LogGroup × Nat)}

theorem nil (iteration : Nat) (last : Stamp) : Log.Timely iteration last [] where
  ordered := .nil
  le_last _ ht := absurd ht List.not_mem_nil

/-- A marker that the checkpoint does not cover has no time. -/
theorem marker (h : Log.Timely iteration last gs) {n : Nat} (hn : iteration < n) (stop : Nat) :
    Log.Timely iteration last (gs ++ [(.marker n, stop)]) := by
  have htimes : LogGroup.times ((Log.behind iteration (gs ++ [(.marker n, stop)])).map (·.1)) =
      LogGroup.times ((Log.behind iteration gs).map (·.1)) := by
    rw [Log.behind_append (fun g hg => by
      rw [List.mem_singleton.mp hg]
      exact decide_eq_false (Nat.not_le_of_lt hn)), List.map_append, LogGroup.times_append]
    exact List.append_nil _
  exact ⟨htimes ▸ h.ordered, htimes ▸ h.le_last⟩

end Log.Timely

/-- Behind the marker of the checkpoint there is nothing. -/
theorem Log.behind_marker (n : Nat) (gs : List (LogGroup × Nat)) (stop : Nat) :
    behind n (gs ++ [(.marker n, stop)]) = [] := by
  rw [behind, List.rtakeWhile_concat, if_neg]
  simp [LogGroup.isCovered]

namespace Database

variable {db : Database}

theorem Durable.log_lt (h : db.Durable) : db.log.file < db.disk.contents.size := by
  obtain ⟨gs, hopen, -⟩ := h.log
  obtain ⟨es, hes, -⟩ := hopen.holds
  exact hes.inside

/-- No directory stands where a manifest is installed. -/
theorem Durable.isDirectory_manifest (h : db.Durable) :
    db.disk.isDirectory [Manifest.path] = false := by
  rw [Disk.isDirectory]
  cases h.anchors with
  | nothing hnone _ => simp [hnone]
  | installed m file blocks hentry => simp [hentry]

/-- **A checkpoint that is not installed** leaves a directory that can be opened again. -/
theorem Durable.spares (h : db.Durable) (hn : db.iteration + 1 < UInt64.size) {d' : Disk}
    (hs : ∀ file, Checkpoint.Spares [Checkpoint.fileName (db.iteration + 1)] file db.disk d')
    (hnames : db.disk.KeepsNames d') : Durable { db with disk := d' } := by
  obtain ⟨-, -, -, hmanifest, hdraft, hdirectory⟩ :=
    Checkpoint.name_of_iterationOf? (Checkpoint.iterationOf?_fileName hn)
  have hplace : ∀ name, name ≠ Checkpoint.fileName (db.iteration + 1) →
      d'.entry? [name] = db.disk.entry? [name] := by
    intro name hne
    refine (hs 0).entries _ fun hm => ?_
    obtain ⟨other, hother, heq⟩ := List.mem_map.mp hm
    exact hne ((List.cons.inj heq).1 ▸ List.mem_singleton.mp hother)
  obtain ⟨gs, hopen, htimely⟩ := h.log
  refine ⟨(hs 0).whole, h.draft.grows_log h.whole hopen hnames (hplace _ hdraft.symm) (hs _).grows,
    ⟨gs, ?_, htimely⟩,
    h.anchors.of_same (.of_grows h.whole (hplace _ hmanifest.symm)
      (fun hlt => hplace _ fun heq => ?_) (hs _).grows)⟩
  · refine hopen.spares (hs (db.log.file + 1)) (Nat.ne_of_lt (Nat.lt_succ_self _)) fun hm => ?_
    exact hdirectory (List.mem_singleton.mp hm).symm
  · have hone := Checkpoint.iterationOf?_fileName hlt
    rw [heq, Checkpoint.iterationOf?_fileName hn] at hone
    exact Nat.succ_ne_self _ (Option.some.inj hone)

/-- **A marker of a later checkpoint** does not matter to what is stood on. -/
theorem Durable.marker (h : db.Durable) {n : Nat} (hlater : db.iteration < n)
    (hn : n < UInt64.size) {log : LogWriter} {disk : Disk}
    (hok : db.log.append db.disk [.checkpoint n] = .ok (log, disk)) :
    Durable { db with log, disk } := by
  obtain ⟨gs, hopen, htimely⟩ := h.log
  obtain ⟨hfile, hsame, stop, hopen'⟩ := hopen.marker hn hok
  have hentry := Disk.sameExcept_of_entries hsame.entries_eq []
  refine ⟨h.whole.sameBut hsame, h.draft.grows_log h.whole hopen (.of_entries hsame.entries_eq)
    (hentry _ List.not_mem_nil) (.sameBut hsame), ⟨_, hopen', htimely.marker hlater stop⟩, ?_⟩
  change Checkpoint.Anchors disk log.file _ _
  rw [hfile]
  exact h.anchors.of_same (.of_grows h.whole (hentry _ List.not_mem_nil)
    (fun _ => hentry _ List.not_mem_nil) (.sameBut hsame))

/-- **A log may be emptied.** -/
theorem Durable.emptyLog (h : db.Durable) : db.emptyLog.Durable := by
  obtain ⟨gs, hopen, -⟩ := h.log
  have hsame : Disk.SameBut db.log.file db.disk db.emptyLog.disk := .setLength ..
  have hentry := Disk.sameExcept_of_entries hsame.entries_eq []
  exact ⟨h.whole.sameBut hsame, h.draft.grows_log h.whole hopen (.of_entries hsame.entries_eq)
    (hentry _ List.not_mem_nil) (.sameBut hsame), ⟨[], hopen.truncate, .nil _ _⟩,
    h.anchors.of_same (.of_grows h.whole (hentry _ List.not_mem_nil)
      (fun _ => hentry _ List.not_mem_nil) (.sameBut hsame))⟩

/-- Names that are not those of other checkpoints are left when these are deleted. -/
theorem Checkpoint.entry_deleteAll {d : Disk} (h : d.Whole) {keep : Nat} {stale : List String}
    (hstale : ∀ name ∈ stale, ∃ n, Checkpoint.iterationOf? name = some n ∧ n ≠ keep) {name : String}
    (hname : ∀ n, Checkpoint.iterationOf? name = some n → n = keep) :
    Disk.entry? (Checkpoint.deleteAll d stale) [name] = d.entry? [name] := by
  obtain ⟨names, hspares, -, -, hall⟩ := Checkpoint.deleteAll_ok h hstale 0
  refine hspares.entries _ fun hm => ?_
  obtain ⟨other, hother, heq⟩ := List.mem_map.mp hm
  obtain ⟨-, n, hn, hne⟩ := hall other hother
  exact hne (hname n ((List.cons.inj heq).1 ▸ hn))

/-- **Files of other checkpoints may be deleted.** -/
theorem Durable.deleteAll (h : db.Durable) {stale : List String}
    (hstale : ∀ name ∈ stale, ∃ n, Checkpoint.iterationOf? name = some n ∧ n ≠ db.iteration) :
    Durable { db with disk := Checkpoint.deleteAll db.disk stale } := by
  obtain ⟨gs, hopen, htimely⟩ := h.log
  obtain ⟨names, hspares, hcontents, hkeeps, hall⟩ :=
    Checkpoint.deleteAll_ok h.whole hstale (db.log.file + 1)
  have hplace : ∀ name, Checkpoint.iterationOf? name = none →
      Disk.entry? (Checkpoint.deleteAll db.disk stale) [name] = db.disk.entry? [name] := fun name hnone =>
    Checkpoint.entry_deleteAll h.whole hstale fun n hn => by simp [hnone] at hn
  refine ⟨hspares.whole, h.draft.grows_log h.whole hopen hkeeps (hplace _ (by decide +kernel))
    (.of_contents hcontents _), ⟨gs, ?_, htimely⟩, ?_⟩
  · refine hopen.spares hspares (Nat.ne_of_lt (Nat.lt_succ_self _)) fun hm => ?_
    obtain ⟨-, n, hn, -⟩ := hall _ hm
    rw [(by decide +kernel : Checkpoint.iterationOf? logDirectory = none)] at hn
    cases hn
  · refine h.anchors.of_same (.of_grows h.whole (hplace _ (by decide +kernel)) (fun hn => ?_)
      (.of_contents hcontents _))
    refine Checkpoint.entry_deleteAll h.whole hstale fun n hname => ?_
    rw [Checkpoint.iterationOf?_fileName hn] at hname
    exact (Option.some.inj hname).symm

end Database
end ColumnStore
