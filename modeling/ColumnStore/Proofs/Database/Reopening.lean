/-
# Opening a directory again

A database that was closed is opened from its checkpoint and its log (`Database.openDirectory_inv`).
As long as the times in the log do not go back and the manifest leads to metadata of a checkpoint, the
tables that come of it are settled, and the directory can be opened in this way over and over
(`Database.Durable.reopen`).
-/

import ColumnStore.Proofs.Checkpoint.Loading
import ColumnStore.Proofs.Checkpoint.Writing
import ColumnStore.Proofs.Database.Recovery

namespace ColumnStore

/-! ## Entries that were read -/

namespace Coder

variable {α : Type}

theorem length_of_decodeMany {read : Bytes → Option (α × Bytes)} {n : Nat} {b rest : Bytes}
    {xs : List α} (h : decodeMany read n b = some (xs, rest)) : xs.length = n := by
  induction n generalizing b xs rest with
  | zero =>
    obtain ⟨rfl, -⟩ := Prod.mk.inj (Option.some.inj h)
    rfl
  | succ n ih =>
    obtain ⟨⟨a, b₁⟩, -, h⟩ := Option.bind_eq_some_iff.mp h
    obtain ⟨⟨more, b₂⟩, hmore, h⟩ := Option.bind_eq_some_iff.mp h
    obtain ⟨rfl, -⟩ := Prod.mk.inj (Option.some.inj h)
    rw [List.length_cons, ih hmore]

/-- **A list that is read has a length of 64 bits.** -/
theorem lt_of_list {c : Coder α} {b rest : Bytes} {xs : List α}
    (h : (list c).decode b = some (xs, rest)) : xs.length < UInt64.size := by
  obtain ⟨⟨n, b₁⟩, hn, h⟩ := Option.bind_eq_some_iff.mp h
  rw [length_of_decodeMany h]
  obtain ⟨⟨front, b₂⟩, hs, heq⟩ := Option.map_eq_some_iff.mp hn
  obtain ⟨rfl, -⟩ := Prod.mk.inj heq
  obtain ⟨-, hlen⟩ := Bytes.split?_eq_some.mp hs
  have hlt := Bytes.toNat_lt front
  rw [hlen] at hlt
  exact hlt

end Coder

theorem LogEntry.narrow_of_decode {b rest : Bytes} {e : LogEntry}
    (h : LogEntry.coder.decode b = some (e, rest)) : e.Narrow := by
  obtain ⟨⟨tag, b₁⟩, -, h⟩ := Option.bind_eq_some_iff.mp h
  obtain ⟨kind, -, h⟩ := Option.bind_eq_some_iff.mp h
  cases kind with
  | createTable =>
    obtain ⟨⟨⟨name, columns⟩, b₂⟩, hd, heq⟩ := Option.map_eq_some_iff.mp h
    obtain ⟨rfl, -⟩ := Prod.mk.inj heq
    obtain ⟨⟨name', b₃⟩, -, hd⟩ := Option.bind_eq_some_iff.mp hd
    obtain ⟨⟨columns', b₄⟩, hc, hd⟩ := Option.bind_eq_some_iff.mp hd
    obtain ⟨heq, -⟩ := Prod.mk.inj (Option.some.inj hd)
    obtain ⟨-, rfl⟩ := Prod.mk.inj heq
    exact Coder.lt_of_list hc
  | _ =>
    obtain ⟨x, -, heq⟩ := Option.map_eq_some_iff.mp h
    obtain ⟨rfl, -⟩ := Prod.mk.inj heq
    trivial

namespace Log

/-- **The entries of a log have columns that can be counted.** -/
theorem Frames.narrow {place : Nat} {b : Bytes} {es : List (LogEntry × Nat)}
    (h : Frame.Frames place b es) : ∀ p ∈ es, p.1.Narrow := by
  induction h with
  | nil => exact fun p hp => absurd hp List.not_mem_nil
  | cons hw _ ih =>
    refine List.forall_mem_cons.mpr ⟨?_, ih⟩
    obtain ⟨header, payload, -, -, -, hentry⟩ := hw
    rw [Frame.entry] at hentry
    split at hentry
    · cases hentry
    · rename_i e rest hd
      split at hentry
      · rw [← Except.ok.inj hentry]
        exact LogEntry.narrow_of_decode hd
      · cases hentry

variable {d : Disk} {path : String} {file : FileId} {es : List (LogEntry × Nat)}
  {gs : List (LogGroup × Nat)}

theorem Groups.narrow (hg : Groups es gs) (hes : ∀ p ∈ es, p.1.Narrow) :
    ∀ g ∈ gs.map (·.1), ∀ e ∈ g.entries, e.Narrow := by
  intro g hm e he
  have hin : e ∈ es.map (·.1) := by
    rw [hg.entries_eq]
    exact List.mem_flatMap.mpr ⟨g, hm, he⟩
  obtain ⟨p, hp, rfl⟩ := List.mem_map.mp hin
  exact hes p hp

theorem Holds.narrow (h : Holds d path file es) : ∀ p ∈ es, p.1.Narrow :=
  have ⟨_, _, _, _, hf⟩ := h.bytes
  Frames.narrow hf

end Log

/-! ## What was replayed -/

/-- **A replay that succeeds has applied the groups.** -/
theorem Log.Groups.applied {es : List (LogEntry × Nat)} {gs : List (LogGroup × Nat)}
    (h : Log.Groups es gs) {policy : SegmentPolicy} {s summary : ReplaySummary} {c c' : Catalog}
    (hok : Replay.applyGroups policy [] s c es = (.ok summary, c')) :
    Replay.applyAll? policy c (gs.map (·.1)) = some c' := by
  induction h generalizing s c with
  | nil =>
    obtain rfl := (Prod.mk.inj hok).2
    rfl
  | @changes es more gs time stop hc _ ih =>
    rw [Replay.applyGroups_changes hc, List.append_nil, Replay.applyGroups, List.reverse_reverse] at hok
    rcases ha : Replay.applyGroup policy time c (es.map (·.1)) with ⟨e | ⟨⟨⟩⟩, c₁⟩
    · rw [ha] at hok
      cases hok
    · rw [ha] at hok
      rw [List.map_cons, Replay.applyAll?, Replay.applyOne?, ha]
      exact ih hok
  | marker _ ih =>
    rw [Replay.applyGroups] at hok
    exact ih hok

namespace Database

variable {d d' : Disk} {file : FileId} {es : List (LogEntry × Nat)} {gs : List (LogGroup × Nat)}
  {settings : Settings} {db db' : Database}

/-- What a database is that was opened on a checkpoint and the groups of a log. -/
structure OpenedOn (d : Disk) (settings : Settings) (file : FileId) (gs : List (LogGroup × Nat))
    (c₀ : Catalog) (time : Stamp) (db : Database) : Prop where
  policy_ok : settings.segmentPolicy = .ok db.policy
  loaded : loadCheckpoint d db.policy = .ok (c₀, db.iteration, time)
  applied : Replay.applyAll? db.policy c₀ ((Log.behind db.iteration gs).map (·.1)) = some db.catalog
  last_eq : db.lastCommit = max time (LogGroup.last ((Log.behind db.iteration gs).map (·.1)))
  disk_eq : db.disk = d
  log_open : Log.Open db.log d gs
  file_eq : db.log.file = file
  idle : db.active = [] ∧ db.decoded = [] ∧ db.nextTransaction = firstTransaction

/-- **What is opened** are the tables of the checkpoint and the groups behind it. -/
theorem openDirectory_inv (h : Log.Holds d (Log.path logDirectory) file es) (hg : Log.Groups es gs)
    (hok : openDirectory d settings = (.ok db, d')) :
    d' = d ∧ ∃ c₀ time, OpenedOn d settings file gs c₀ time db := by
  rw [openDirectory] at hok
  split at hok
  · cases hok
  rename_i policy catalog iteration lastCommit replayed hx
  obtain ⟨policy', hp, hx⟩ := bind_eq_ok.mp hx
  obtain ⟨r, hrecover, hx⟩ := bind_eq_ok.mp hx
  obtain ⟨rfl, rfl⟩ := Prod.mk.inj (Except.ok.inj hx)
  have hp := mapError_eq_ok.mp hp
  rw [recover] at hrecover
  obtain ⟨⟨c₀, iteration', time⟩, hload, hrecover⟩ := bind_eq_ok.mp hrecover
  have hload := mapError_eq_ok.mp hload
  dsimp only at hrecover
  rw [Replay.ofFile, h.read] at hrecover
  dsimp only at hrecover
  split at hrecover
  · cases hrecover
  rename_i summary c hreplay
  obtain ⟨rfl, heq⟩ := Prod.mk.inj (Except.ok.inj hrecover)
  obtain ⟨rfl, hrest⟩ := Prod.mk.inj heq
  obtain ⟨rfl, rfl⟩ := Prod.mk.inj hrest
  -- The groups behind the last marker are applied, and nothing is left over.
  obtain ⟨old, new, front, hes, -, -, hnew, hcovered⟩ := hg.behind_split iteration'
  have hfree := hnew.uncovered fun g hg' => Log.not_isCovered_of_behind hg'
  have hplain : ({ entries := es, validLength := (d.bytes file).length } : LogContents) =
      { entries := old ++ new, validLength := (d.bytes file).length, torn := false } := by rw [hes]
  rw [hplain, Replay.ofContents_append hcovered hfree] at hreplay
  have happlied := hnew.applied hreplay
  rw [Replay.applyGroups_eq hnew.sound hnew.entries_eq happlied] at hreplay
  have hsummary := Except.ok.inj (Prod.mk.inj hreplay).1
  have hdiscarded : summary.discarded = 0 := by rw [← hsummary]
  have hlast : summary.lastCommit =
      LogGroup.last ((Log.behind iteration' gs).map (·.1)) := by
    rw [← hsummary]
    exact (ReplaySummary.lastCommit_over hnew.sound hnew.entries_eq _).trans
      (Nat.max_eq_right (Nat.zero_le _))
  obtain ⟨header, body, hbytes, hheader, hframes⟩ := h.bytes
  have hlong : FileHeader.length ≤ (d.bytes file).length := by
    rw [hbytes, List.length_append, hheader.1]
    exact Nat.le_add_right _ _
  have hopen := LogWriter.openIn_whole h.find h.read hlong settings.log.bufferSize
  rw [if_neg (by simp)] at hopen
  rw [openLog, hopen, Attempt.andThen_ok, if_pos hdiscarded] at hok
  obtain ⟨hdb, rfl⟩ := Prod.mk.inj hok
  rw [← Except.ok.inj hdb]
  exact ⟨rfl, c₀, time, hp, hload, happlied, by rw [← hlast], rfl, ⟨⟨es, h, hg⟩, rfl⟩, rfl, rfl, rfl,
    rfl⟩

/-! ## Directories that can be opened again -/

end Database

/-- Groups behind the checkpoint with a number whose times do not go back and are not after a time.
-/
structure Log.Timely (iteration : Nat) (last : Stamp) (gs : List (LogGroup × Nat)) : Prop where
  ordered : (LogGroup.times ((behind iteration gs).map (·.1))).Pairwise (· ≤ ·)
  le_last : ∀ t ∈ LogGroup.times ((behind iteration gs).map (·.1)), t ≤ last

theorem LogGroup.last_le {groups : List LogGroup} {last : Stamp}
    (h : ∀ t ∈ times groups, t ≤ last) : LogGroup.last groups ≤ last := by
  induction groups with
  | nil => exact Nat.zero_le _
  | cons g rest ih =>
    rw [last_cons]
    have hrest := ih fun t ht => h t (List.mem_append_right _ ht)
    cases g with
    | marker n => exact Nat.max_le.mpr ⟨Nat.zero_le _, hrest⟩
    | changes es time => exact Nat.max_le.mpr ⟨h time (List.mem_append_left _ List.mem_cons_self), hrest⟩

theorem LogGroup.le_last {groups : List LogGroup} : ∀ t ∈ times groups, t ≤ LogGroup.last groups := by
  induction groups with
  | nil => exact fun t ht => absurd ht List.not_mem_nil
  | cons g rest ih =>
    intro t ht
    rw [last_cons]
    rcases List.mem_append.mp ht with ht | ht
    · cases g with
      | marker n => exact absurd ht List.not_mem_nil
      | changes es time =>
        rw [List.mem_singleton.mp ht]
        exact Nat.le_max_left _ _
    · exact Nat.le_trans (ih t ht) (Nat.le_max_right _ _)

/-- The name of the log. -/
theorem Log.Open.name {w : LogWriter} {d : Disk} {gs : List (LogGroup × Nat)} (h : Open w d gs) :
    d.entry? ["wal", "strata.wal"] = some (.file w.file) := by
  obtain ⟨es, hes, -⟩ := h.holds
  exact (Disk.find_log_iff.mp hes.find).2

/-- A manifest can be drafted whatever is done to the log and to new files. -/
theorem Checkpoint.Draftable.grows_log {w : LogWriter} {d d' : Disk} {gs : List (LogGroup × Nat)}
    (h : Draftable d) (hd : d.Whole) (hopen : Log.Open w d gs) (hnames : d.KeepsNames d')
    (hentry : d'.entry? [Manifest.draftPath] = d.entry? [Manifest.draftPath])
    (hgrows : d.Grows w.file d') : Draftable d' :=
  h.grows hd hnames hentry hopen.name (by decide) hgrows

namespace Database

/-- A database with a directory that can be opened again. -/
structure Durable (db : Database) : Prop where
  whole : db.disk.Whole
  draft : Checkpoint.Draftable db.disk
  log : ∃ gs, Log.Open db.log db.disk gs ∧ Log.Timely db.iteration db.lastCommit gs
  anchors : Checkpoint.Anchors db.disk db.log.file db.iteration db.lastCommit

variable {d' : Disk} {settings : Settings} {db db' : Database}

/-- **A directory that is opened again** gives an idle database, and can be opened again. -/
theorem Durable.reopen (h : db.Durable) (hlast : db.lastCommit < firstTransaction)
    (hok : openDirectory db.disk settings = (.ok db', d')) :
    db'.Durable ∧ db'.Idle ∧ db'.lastCommit ≤ db.lastCommit ∧
      db'.nextTransaction = firstTransaction ∧ settings.segmentPolicy = .ok db'.policy := by
  obtain ⟨gs, ⟨⟨es, hes, hgroups⟩, -⟩, htimely⟩ := h.log
  obtain ⟨-, c₀, time, ho⟩ := openDirectory_inv hes hgroups hok
  have hp := capacity_pos ho.policy_ok
  obtain ⟨hiteration, htime, hsettled, hanchors⟩ := h.anchors.loadCheckpoint hp ho.loaded
  have happlied := ho.applied
  have hlast' := ho.last_eq
  rw [hiteration] at happlied hlast'
  have hle : db'.lastCommit ≤ db.lastCommit := by
    rw [hlast']
    exact Nat.max_le.mpr ⟨htime, LogGroup.last_le htimely.le_last⟩
  have hall : ∀ t ∈ LogGroup.times ((Log.behind db.iteration gs).map (·.1)), t ≤ db'.lastCommit := by
    intro t ht
    rw [hlast']
    exact Nat.le_trans (LogGroup.le_last t ht) (Nat.le_max_right _ _)
  have hnarrow := hgroups.narrow hes.narrow
  have hcatalog := Replay.settled_applyAll hp hsettled (fun g hg => hnarrow g
    (List.map_subset _ (List.rtakeWhile_suffix _ gs).subset hg)) htimely.ordered hall happlied
  obtain ⟨hactive, hdecoded, hnext⟩ := ho.idle
  refine ⟨⟨?_, ?_, ⟨gs, ?_, ?_⟩, ?_⟩, ⟨?_, Nat.lt_of_le_of_lt hle hlast, ?_, ?_, hactive, ?_⟩, hle,
    hnext, ho.policy_ok⟩
  · rw [ho.disk_eq]
    exact h.whole
  · rw [ho.disk_eq]
    exact h.draft
  · rw [ho.disk_eq]
    exact ho.log_open
  · rw [hiteration]
    exact ⟨htimely.ordered, hall⟩
  · rw [ho.disk_eq, ho.file_eq, hiteration]
    exact hanchors.mono (by rw [hlast']; exact Nat.le_max_left _ _)
  · have hsafe : db'.SafeFile = fun v => v.blocks.file ≠ db.log.file := by
      funext v
      rw [SafeFile, ho.file_eq]
    rw [hsafe]
    exact hcatalog
  · rw [hnext]
  · rw [hnext]
    decide
  · rw [hdecoded]
    exact Decoded.kept_nil _ _

end Database
end ColumnStore
