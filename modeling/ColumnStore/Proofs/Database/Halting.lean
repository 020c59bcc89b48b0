/-
# Checkpoints that are interrupted

A process may die at any point of a checkpoint (`Database.Partway`).  As long as the manifest is not in
its place the directory recalls what it did before, and from then on the checkpoint is one chapter more
(`Database.Resting.fallen`).  When it is done, it is a chapter of what has happened to the database
(`Database.Resting.checkpoint`).
-/

import ColumnStore.Proofs.Database.Reviving

namespace ColumnStore

/-! ## The steps on the disk -/

namespace Remembers

variable {policy : SegmentPolicy} {w w' : LogWriter} {d d' : Disk} {n : Nat} {cs : List Chapter}
  {m : Catalog}

/-- **A marker of a later checkpoint** does not matter, however much of it reached the log. -/
theorem marker (h : Remembers policy w d n cs m) {n' : Nat} (hlater : n < n') (hn : n' < UInt64.size)
    (hok : w.append d [.checkpoint n'] = .ok (w', d')) :
    Remembers policy w' d' n cs m ∧ ∀ k, w.length ≤ k → Fallen policy cs (d'.cutLog k) := by
  obtain ⟨gs, hopen, hr⟩ := h
  obtain ⟨hfile, hsame, stop, hopen'⟩ := hopen.marker hn hok
  have hr₁ := hr.sameBut hsame
  have hunmarked : ∀ g ∈ [(LogGroup.marker n', stop)],
      g.1.isMarker = true ∧ g.1.isCovered n = false := by
    intro g hg
    rw [List.mem_singleton.mp hg]
    exact ⟨rfl, decide_eq_false (Nat.not_le_of_lt hlater)⟩
  have hr₂ := (Recalls.unmarked hunmarked).mpr hr₁
  rw [← hfile] at hr₁ hr₂
  refine ⟨⟨_, hopen', hr₂⟩, fun k hk => ?_⟩
  obtain ⟨k', htorn, hwithin⟩ := hopen.torn_last hopen' hk
  refine ⟨_, _, _, k', n, m, htorn, ?_⟩
  rcases hwithin with hwithin | hwithin <;> rw [hwithin]
  · exact hr₁
  · exact hr₂

/-- **A draft of a manifest** does not matter. -/
theorem drafted (h : Remembers policy w d n cs m) {b : Bytes} {file : FileId}
    (hd : Checkpoint.Drafted d d' b file) (hshort : b.length < BlockFile.headerArea) :
    Remembers policy w d' n cs m := by
  obtain ⟨gs, hopen, hr⟩ := h
  obtain ⟨-, halone⟩ := hr.draft.target hr.whole hd.old
  exact ⟨gs, hopen.spares hd.spares (halone _ _ (by decide) hopen.name) (by decide),
    hr.drafted hd.spares hd.old hd.entry (hd.bytes ▸ hshort)⟩

/-- **Behind the marker of the checkpoint** the log may be emptied. -/
theorem emptied {gs : List (LogGroup × Nat)} {stop : Nat}
    (hopen : Log.Open w d (gs ++ [(.marker n, stop)]))
    (hr : Recalls policy w.file d n (gs ++ [(.marker n, stop)]) cs m) :
    Remembers policy (w.truncate d).1 (w.truncate d).2 n cs m := by
  have hnone := Log.behind_marker n gs stop
  have hr' : Recalls policy w.file d n [] cs m :=
    hr.congr (fun c => by rw [hnone]; rfl) (by rw [hnone]; rfl) (by rw [hnone]; rfl)
  exact ⟨[], hopen.truncate, hr'.sameBut (.setLength ..)⟩

/-- **Files of other checkpoints** may be deleted. -/
theorem deleteAll (h : Remembers policy w d n cs m) {stale : List String}
    (hstale : ∀ name ∈ stale, ∃ k, Checkpoint.iterationOf? name = some k ∧ k ≠ n) :
    Remembers policy w (Checkpoint.deleteAll d stale) n cs m := by
  obtain ⟨_, -, hr⟩ := id h
  obtain ⟨names, hspares, hcontents, hkeeps, hall⟩ := Checkpoint.deleteAll_ok hr.whole hstale 0
  exact h.spares (fun file => ⟨hspares.whole, hspares.entries, .of_contents hcontents file⟩) hkeeps
    fun name hm => (hall name hm).2

end Remembers

namespace Database

variable {db : Database} {policy : SegmentPolicy} {cs : List Chapter}

/-- What a checkpoint leaves when the process dies before it is done, with the chapters of it that
tell of what has happened. -/
inductive Partway (db : Database) : List Chapter → Disk → Prop
  /-- What had the name of the file was deleted. -/
  | cleared {d : Disk} (hc : Checkpoint.clear db.disk (db.iteration + 1) = .ok d) : Partway db [] d
  /-- The file was created, and something was written to it. -/
  | writing {d d₁ : Disk} {f : BlockFile}
      (hc : Checkpoint.clear db.disk (db.iteration + 1) = .ok d)
      (hf : BlockFile.create d (Checkpoint.fileName (db.iteration + 1)) db.blockSize = .ok (f, d₁))
      (b : Bytes) : Partway db [] (d₁.write f.file b)
  /-- The file was written, and some of the marker is in the log. -/
  | marking {w : WrittenCheckpoint} {db₁ : Database} {log : LogWriter} {d : Disk}
      (hw : db.writeCheckpoint (db.iteration + 1) db.lastCommit .committed db.vectorSize =
        (.ok w, db₁))
      (ha : db₁.log.append db₁.disk [.checkpoint w.manifest.iteration] = .ok (log, d))
      (k : Nat) (hk : db.log.length ≤ k) : Partway db [] (d.cutLog k)
  /-- The marker is in the log, and some of the manifest was written under its first name. -/
  | drafting {w : WrittenCheckpoint} {db₁ : Database} {log : LogWriter} {d d₁ : Disk} {file : FileId}
      (hw : db.writeCheckpoint (db.iteration + 1) db.lastCommit .committed db.vectorSize =
        (.ok w, db₁))
      (ha : db₁.log.append db₁.disk [.checkpoint w.manifest.iteration] = .ok (log, d))
      (hf : d.create Manifest.draftPath = .ok (file, d₁)) (k : Nat) :
      Partway db [] (d₁.write file ((Bytes.ofString w.manifest.render).take k))
  /-- The manifest is in its place. -/
  | installed {w : WrittenCheckpoint} {db₁ : Database} {log : LogWriter} {d d₁ : Disk}
      (hw : db.writeCheckpoint (db.iteration + 1) db.lastCommit .committed db.vectorSize =
        (.ok w, db₁))
      (ha : db₁.log.append db₁.disk [.checkpoint w.manifest.iteration] = .ok (log, d))
      (hi : Checkpoint.install d w.manifest = (.ok (), d₁)) : Partway db [.checkpoint] d₁
  /-- The log was emptied, and some of the other checkpoints were deleted. -/
  | removing {w : WrittenCheckpoint} {db₁ : Database} {log : LogWriter} {d d₁ : Disk}
      (hw : db.writeCheckpoint (db.iteration + 1) db.lastCommit .committed db.vectorSize =
        (.ok w, db₁))
      (ha : db₁.log.append db₁.disk [.checkpoint w.manifest.iteration] = .ok (log, d))
      (hi : Checkpoint.install d w.manifest = (.ok (), d₁)) (k : Nat) :
      Partway db [.checkpoint] (Checkpoint.deleteAll (log.truncate d₁).2
        ((Checkpoint.stale (log.truncate d₁).2 w.manifest.iteration).take k))

/-- A checkpoint has no time. -/
theorem Partway.last_eq {more : List Chapter} {d : Disk} (h : db.Partway more d) :
    Chapter.last more = 0 := by
  cases h <;> rfl

/-- A database at rest of which chapters tell, with codecs that invert themselves. -/
structure Resting (policy : SegmentPolicy) (cs : List Chapter) (db : Database) : Prop where
  idle : db.Idle
  durable : db.Durable
  readable : db.Readable
  short : db.Short
  chronicled : db.Chronicled policy cs
  capacity : 0 < policy.capacity
  faithful : policy.compression.Faithful

/-- The names of the files of another checkpoint. -/
theorem forall_fileName {n : Nat} (hn : n + 1 < UInt64.size) :
    ∀ name ∈ [Checkpoint.fileName (n + 1)], ∃ k, Checkpoint.iterationOf? name = some k ∧ k ≠ n := by
  intro name hm
  rw [List.mem_singleton.mp hm]
  exact ⟨n + 1, Checkpoint.iterationOf?_fileName hn, Nat.succ_ne_self n⟩

namespace Resting

/-- **The chapters tell** the tables of a database at rest. -/
theorem listed (h : db.Resting policy cs) : (Ledger.of cs).Listed db := by
  obtain ⟨-, -, m, ⟨_, -, hr⟩, hmirrors⟩ := h.chronicled
  exact (h.idle.tells hmirrors hr.told).listed (h.idle.sound h.readable)

/-- **A checkpoint that is being written** is in nobody's way. -/
theorem written (h : db.Resting policy cs) (hn : db.iteration + 1 < UInt64.size)
    {r : Except StorageError WrittenCheckpoint} {db₁ : Database}
    (hw : db.writeCheckpoint (db.iteration + 1) db.lastCommit .committed db.vectorSize = (r, db₁)) :
    ∃ decoded disk, db₁ = { db with decoded, disk } ∧ db₁.Idle ∧ db₁.Durable ∧ db₁.Readable ∧
      db₁.Chronicled policy cs ∧ ∀ w, r = .ok w → ∃ f, db.Wrote (db.iteration + 1) w f disk := by
  obtain ⟨⟨decoded, disk, rfl⟩, hidle, hspares, hnames, hwrote⟩ :=
    h.idle.writeCheckpoint h.readable h.short hn h.durable.whole hw
  obtain ⟨hpolicy, hlast, m, hm, hmirrors⟩ := h.chronicled
  refine ⟨decoded, disk, rfl, hidle,
    (h.durable.spares hn hspares hnames).congr rfl rfl rfl rfl, ?_, ⟨hpolicy, hlast, m, ?_, hmirrors⟩,
    hwrote⟩
  · exact Catalog.Readable.keeps h.readable h.idle.catalog.tables_safe
      ((hspares _).grows.keeps fun _ => id)
  · exact hm.spares hspares hnames (forall_fileName hn)

/-- **A checkpoint that is installed** is a chapter more. -/
theorem installed (h : db.Resting policy cs) (hn : db.iteration + 1 < UInt64.size)
    {w : WrittenCheckpoint} {f : BlockFile} {decoded : Decoded} {disk disk₂ disk₃ : Disk}
    {log₂ : LogWriter} (hw : db.Wrote (db.iteration + 1) w f disk)
    (hd : Durable { db with decoded, disk })
    (ha : db.log.append disk [.checkpoint (db.iteration + 1)] = .ok (log₂, disk₂))
    (hi : Checkpoint.install disk₂ w.manifest = (.ok (), disk₃))
    (hlong : (disk₃.bytes f.file).length ≤ Bytes.longest) :
    ∃ m, Remembers policy log₂ disk₃ (db.iteration + 1) (cs ++ [.checkpoint]) m ∧
      Remembers policy (log₂.truncate disk₃).1 (log₂.truncate disk₃).2 (db.iteration + 1)
        (cs ++ [.checkpoint]) m ∧
      ∀ c, db.catalog.Adopts (db.catalog.ids.zip w.columns) c → c.Mirrors db.lastCommit m := by
  obtain ⟨rfl, hlast, m, ⟨_, -, hr⟩, hmirrors⟩ := h.chronicled
  obtain ⟨hfile, -, d₃, file, gs, stop, hinstall, hin, -, hopen, hstands⟩ :=
    hw.mark hn (Nat.lt_succ_self _) h.durable hd ha
  obtain rfl : d₃ = disk₃ := (Prod.mk.inj (hinstall.symm.trans hi)).2
  obtain ⟨m', hr', hall⟩ := hstands.recalls h.idle hn h.capacity h.faithful hlong h.durable.log_lt
    hin.spares.whole (.of_none hin.draft) (hfile ▸ hopen.name) hmirrors hr.regular hr.told hlast gs stop
  rw [← hfile] at hr'
  exact ⟨m', ⟨_, hopen, hr'⟩, .emptied hopen hr', hall⟩

/-- **When the log is emptied and other checkpoints are deleted,** nothing is lost. -/
theorem cleaned (h : db.Resting policy cs) (hn : db.iteration + 1 < UInt64.size)
    {w : WrittenCheckpoint} {f : BlockFile} {decoded : Decoded} {disk disk₂ disk₃ : Disk}
    {log₂ : LogWriter} (hw : db.Wrote (db.iteration + 1) w f disk)
    (hd : Durable { db with decoded, disk })
    (ha : db.log.append disk [.checkpoint (db.iteration + 1)] = .ok (log₂, disk₂))
    (hi : Checkpoint.install disk₂ w.manifest = (.ok (), disk₃)) {stale : List String}
    (hstale : ∀ name ∈ stale, ∃ k, Checkpoint.iterationOf? name = some k ∧ k ≠ db.iteration + 1)
    (hlong : ∀ file, (Disk.bytes (Checkpoint.deleteAll (log₂.truncate disk₃).2 stale) file).length ≤
      Bytes.longest) :
    ∃ m, Remembers policy (log₂.truncate disk₃).1
        (Checkpoint.deleteAll (log₂.truncate disk₃).2 stale) (db.iteration + 1)
        (cs ++ [.checkpoint]) m ∧
      ∀ c, db.catalog.Adopts (db.catalog.ids.zip w.columns) c → c.Mirrors db.lastCommit m := by
  obtain ⟨hfile, -, d₃, file, _, _, hinstall, hin, -, -, hstands⟩ :=
    hw.mark hn (Nat.lt_succ_self _) h.durable hd ha
  obtain rfl := (Prod.mk.inj (hinstall.symm.trans hi)).2
  have hbytes := (log₂.grows_cleanup hin.spares.whole hstale).bytes_eq f.file
    hstands.wrote.whole.inside (hfile ▸ hw.fresh ▸ Nat.ne_of_gt h.durable.log_lt)
  obtain ⟨m, -, hm, hmirrors⟩ := h.installed hn hw hd ha hi (hbytes ▸ hlong f.file)
  exact ⟨m, hm.deleteAll hstale, hmirrors⟩

/-- **Wherever a checkpoint is interrupted,** it leaves what can be opened again. -/
theorem fallen (h : db.Resting policy cs) (hn : db.iteration + 1 < UInt64.size)
    {more : List Chapter} {d : Disk} (hp : db.Partway more d)
    (hlong : ∀ file, (d.bytes file).length ≤ Bytes.longest) : Fallen policy (cs ++ more) d := by
  obtain ⟨-, -, m, hm, -⟩ := id h.chronicled
  cases hp with
  | cleared hc =>
    have hspares := fun file => (Checkpoint.clear_ok hn h.durable.whole hc file).2.1
    obtain ⟨-, -, -, hnames⟩ := Checkpoint.clear_ok hn h.durable.whole hc 0
    rw [List.append_nil]
    exact (hm.spares hspares hnames (forall_fileName hn)).fallen
  | @writing d d₁ f hc hf b =>
    have hcreate := fun file => Checkpoint.create_spares hn
      (Checkpoint.clear_ok hn h.durable.whole hc file).2.1.whole
      (Checkpoint.clear_ok hn h.durable.whole hc file).1 hf (.write f.file d₁ b) file
    have hspares := fun file =>
      (Checkpoint.clear_ok hn h.durable.whole hc file).2.1.trans (hcreate file).1
    obtain ⟨-, hclear, -, hnames⟩ := Checkpoint.clear_ok hn h.durable.whole hc 0
    rw [List.append_nil]
    exact (hm.spares hspares (hnames.trans hclear.grows.size_le (hcreate 0).2)
      (forall_fileName hn)).fallen
  | marking hw ha k hk =>
    obtain ⟨decoded, disk, rfl, -, -, -, ⟨-, -, m', hm', -⟩, hwrote⟩ := h.written hn hw
    obtain ⟨f, hf⟩ := hwrote _ rfl
    rw [hf.iteration_eq] at ha
    rw [List.append_nil]
    exact (hm'.marker (Nat.lt_succ_self _) hn ha).2 k hk
  | @drafting w db₁ log d d₁ file hw ha hf k =>
    obtain ⟨decoded, disk, rfl, -, hd, -, ⟨-, -, m', hm', -⟩, hwrote⟩ := h.written hn hw
    obtain ⟨f, hwrote⟩ := hwrote _ rfl
    rw [hwrote.iteration_eq] at ha
    obtain ⟨hremembers, -⟩ := hm'.marker (Nat.lt_succ_self _) hn ha
    obtain ⟨_, hopen, hr⟩ := id hremembers
    obtain ⟨file', d', hcreate, hdrafted⟩ := Checkpoint.draft_ok hr.whole hr.draft.free
    obtain ⟨rfl, rfl⟩ := Prod.mk.inj (Except.ok.inj (hcreate.symm.trans hf))
    have hdrafted := hdrafted ((Bytes.ofString w.manifest.render).take k)
    -- The block file is not the draft, so it can be held in memory and its place can be written.
    obtain ⟨-, hsame, -⟩ := hwrote.mark hn (Nat.lt_succ_self _) h.durable hd ha
    obtain ⟨-, halone⟩ := hr.draft.target hr.whole hdrafted.old
    obtain ⟨-, -, -, -, hname, -⟩ :=
      Checkpoint.name_of_iterationOf? (Checkpoint.iterationOf?_fileName hn)
    have hentry := (Disk.sameExcept_of_entries hsame.entries_eq [] _ List.not_mem_nil).trans hwrote.entry
    have hbytes := hdrafted.spares.grows.bytes_eq f.file (hr.whole _ _ hentry)
      (halone _ _ (by simpa using hname) hentry)
    rw [hsame.bytes_eq _ (hwrote.fresh ▸ Nat.ne_of_gt h.durable.log_lt)] at hbytes
    rw [List.append_nil]
    refine (hremembers.drafted hdrafted (Nat.lt_of_le_of_lt (List.length_take_le' ..) ?_)).fallen
    exact hwrote.length_manifest hn (hbytes ▸ hlong f.file)
  | installed hw ha hi =>
    obtain ⟨decoded, disk, rfl, -, hd, -, -, hwrote⟩ := h.written hn hw
    obtain ⟨f, hf⟩ := hwrote _ rfl
    rw [hf.iteration_eq] at ha
    obtain ⟨m', hm', -⟩ := h.installed hn hf hd ha hi (hlong _)
    exact hm'.fallen
  | @removing w db₁ log d d₁ hw ha hi k =>
    obtain ⟨decoded, disk, rfl, -, hd, -, -, hwrote⟩ := h.written hn hw
    obtain ⟨f, hf⟩ := hwrote _ rfl
    rw [hf.iteration_eq] at ha
    obtain ⟨m', hm', -⟩ := h.cleaned hn hf hd ha hi (fun name hm => hf.iteration_eq ▸
      Checkpoint.iterationOf?_stale name (List.mem_of_mem_take hm)) hlong
    exact hm'.fallen

/-- **A checkpoint that is done** is a chapter of what has happened, and one that is refused is none. -/
theorem checkpoint (h : db.Resting policy cs) {r : Except TransactionError Nat} {db' : Database}
    (hok : db.checkpoint = (r, db')) (hcompact : db'.Compact) :
    db'.Chronicled policy (cs ++ Chapter.ofCheckpoint r) ∧ db'.Readable := by
  rw [Database.checkpoint, h.idle.active] at hok
  simp only [List.isEmpty_nil, Bool.not_true, Bool.false_eq_true, if_false] at hok
  split at hok
  · obtain ⟨rfl, rfl⟩ := Prod.mk.inj hok
    rw [Chapter.ofCheckpoint, List.append_nil]
    exact ⟨h.chronicled, h.readable⟩
  rename_i hiteration
  have hn := Nat.lt_of_not_le hiteration
  rcases hw : db.writeCheckpoint (db.iteration + 1) db.lastCommit .committed db.vectorSize
    with ⟨r₁, db₁⟩
  rw [hw] at hok
  obtain ⟨decoded, disk, rfl, hidle, hd, hr, hc, hwrote⟩ := h.written hn hw
  cases r₁ with
  | error e =>
    obtain ⟨rfl, rfl⟩ := Prod.mk.inj hok
    rw [Chapter.ofCheckpoint, List.append_nil]
    exact ⟨hc, hr⟩
  | ok w =>
    obtain ⟨f, hf⟩ := hwrote w rfl
    change adoptCheckpoint { db with decoded, disk } db.catalog.ids w = (r, db') at hok
    cases ha : db.log.append disk [.checkpoint (db.iteration + 1)] with
    | error e =>
      rw [adoptCheckpoint] at hok
      dsimp only at hok
      rw [hf.iteration_eq, ha] at hok
      obtain ⟨rfl, rfl⟩ := Prod.mk.inj hok
      rw [Chapter.ofCheckpoint, List.append_nil]
      exact ⟨hc, hr⟩
    | ok next =>
      obtain ⟨log₂, disk₂⟩ := next
      obtain ⟨rfl, disk₃, c, hadopted⟩ :=
        hf.adopt hn (Nat.lt_succ_self _) h.durable hd hidle ha hok hcompact
      obtain rfl := hadopted.eq
      obtain ⟨m, hm, hmirrors⟩ := h.cleaned hn hf hd ha hadopted.installed
        (@Checkpoint.iterationOf?_stale (log₂.truncate disk₃).2 (db.iteration + 1)) hcompact
      have hmirrors := hmirrors c hadopted.catalog
      obtain ⟨hpolicy, hlast, -⟩ := h.chronicled
      refine ⟨⟨hpolicy, ?_, m, hm, hmirrors⟩, fun id t ht => ?_⟩
      · rw [Chapter.ofCheckpoint, Chapter.last_append]
        exact hlast.trans (Nat.max_eq_left (Nat.zero_le _)).symm
      · -- A table that was dropped is what it was, and any other one has a mirror that can be read.
        obtain ⟨_, _, hrecalls⟩ := hm
        rcases hadopted.catalog.tables id t ht with ⟨-, ht⟩ | ⟨columns, t₀, hin, ht₀, hreplace⟩
        · have hkeeps := hadopted.keeps
          exact (hr id t ht).keeps (h.idle.catalog.tables_safe id t ht) hkeeps
        · obtain ⟨t₁, ht₁, hdropped, -⟩ := h.idle.named (List.of_mem_zip hin).1
          obtain rfl := Option.some.inj (ht₀.symm.trans ht₁)
          obtain ⟨versions, -, hversions⟩ := bind_eq_ok.mp hreplace
          obtain ⟨j, u, -, hu, hmu⟩ := hmirrors.tables id t ht (Except.ok.inj hversions ▸ hdropped)
          exact hmu.readable (hrecalls.readable j u hu)

end Resting
end Database
end ColumnStore
